import Zukomp.Core.Types

/-! # The codec registry, zu_registry.c

A fixed-capacity table of vtables beside the static table of declared codec names. A
registration that is accepted keeps every id, name and content-encoding token with one
codec, whatever came before it.
-/

namespace Zukomp

/-- The bytes of a C string, its NUL left out. -/
structure CString where
  bytes : List UInt8
  noNul : 0 ∉ bytes
  deriving DecidableEq

def cstring (s : List Char) (h : 0 ∉ s.map (fun c => c.toNat.toUInt8) := by decide) : CString :=
  ⟨s.map fun c => c.toNat.toUInt8, h⟩

/-- The ASCII fold of `zu_int_ieq`. -/
def asciiLower (b : UInt8) : UInt8 := if 0x41 ≤ b ∧ b ≤ 0x5A then b - 0x41 + 0x61 else b

/-- `zu_int_ieq`, up to the NUL of either string. -/
def ieq : List UInt8 → List UInt8 → Bool
  | [], [] => true
  | a :: as, b :: bs => asciiLower a == asciiLower b && ieq as bs
  | _, _ => false

/-- Two tokens, neither of them NULL, that are equal but for ASCII case. -/
def ieqToken : Option CString → Option CString → Bool
  | some a, some b => ieq a.bytes b.bytes
  | _, _ => false

/-! ## Declared codec names -/

/-- `zu_int_codec_decl` -/
structure Declared where
  codec : CodecId
  name : CString
  contentEncoding : Option CString

/-- `zu_int_declared`: the values are permanent, also of codecs that are not compiled in. -/
def declared : List Declared :=
  [{ codec := 1, name := cstring ['i', 'd', 'e', 'n', 't', 'i', 't', 'y']
     contentEncoding := some (cstring ['i', 'd', 'e', 'n', 't', 'i', 't', 'y']) },
   { codec := 2, name := cstring ['d', 'e', 'f', 'l', 'a', 't', 'e', '-', 'r', 'a', 'w']
     contentEncoding := none },
   { codec := 3, name := cstring ['z', 'l', 'i', 'b']
     contentEncoding := some (cstring ['d', 'e', 'f', 'l', 'a', 't', 'e']) },
   { codec := 4, name := cstring ['g', 'z', 'i', 'p']
     contentEncoding := some (cstring ['g', 'z', 'i', 'p']) },
   { codec := 16, name := cstring ['b', 'r', 'o', 't', 'l', 'i']
     contentEncoding := some (cstring ['b', 'r']) },
   { codec := 17, name := cstring ['z', 's', 't', 'd']
     contentEncoding := some (cstring ['z', 's', 't', 'd']) },
   { codec := 18, name := cstring ['l', 'z', '4', '-', 'f', 'r', 'a', 'm', 'e']
     contentEncoding := none },
   { codec := 19, name := cstring ['l', 'z', '4', '-', 'b', 'l', 'o', 'c', 'k']
     contentEncoding := none },
   { codec := 20
     name := cstring ['s', 'n', 'a', 'p', 'p', 'y', '-', 'f', 'r', 'a', 'm', 'e']
     contentEncoding := none },
   { codec := 21, name := cstring ['s', 'n', 'a', 'p', 'p', 'y', '-', 'r', 'a', 'w']
     contentEncoding := none }]

def declaredFor (codec : CodecId) : Option Declared := declared.find? fun d => d.codec = codec

def codecNone : CodecId := 0

def vendorBase : CodecId := 1024

/-! ## The table -/

/-- Which entry points of one direction a vtable has. -/
structure EntryPoints where
  new : Bool
  process : Bool
  free : Bool

def EntryPoints.complete (e : EntryPoints) : Bool := e.new && e.process && e.free

/-- `zu_codec_vtable` as the registry reads it; a NULL pointer is `none` or `false`. `magic` is
the `magic_len` bytes of the magic, and a sniffer sees the bytes that it is given the length of. -/
structure Registrant where
  structSize : UInt32
  name : Option CString
  contentEncoding : Option CString
  source : Option CString
  magic : Option (List UInt8)
  magicOffset : UInt64
  sniff : Option (List UInt8 → Bool)
  encoder : EntryPoints
  decoder : EntryPoints
  vtable : CodecVtable

def Registrant.codec (v : Registrant) : CodecId := v.vtable.codec

/-- `ZU_VTABLE_REQUIRED_SIZE`, up to and including `bound`. -/
def vtableRequiredSize : UInt32 := 152

def registryCap : ℕ := 32

structure Registry where
  entries : List Registrant
  generation : UInt64

def Registry.empty : Registry := ⟨[], 0⟩

namespace Registry

def lookup (r : Registry) (codec : CodecId) : Option Registrant :=
  if codec = codecNone then none else r.entries.find? fun e => e.codec = codec

/-- The name or the token of `v` is that of a declared codec with another id. -/
def clashesDeclared (v : Registrant) : Bool :=
  declared.any fun d =>
    (some d.name = v.name ∨ ieqToken d.contentEncoding v.contentEncoding) ∧ d.codec ≠ v.codec

/-- The name or the token of `v` is registered. -/
def clashesRegistered (r : Registry) (v : Registrant) : Bool :=
  r.entries.any fun e => e.name = v.name ∨ ieqToken e.contentEncoding v.contentEncoding

/-- A declared id goes with its name; other ids lie in the vendor range. -/
def wrongIdentity (v : Registrant) : Bool :=
  match declaredFor v.codec with
  | some d => v.name ≠ some d.name
  | none => v.codec < vendorBase

def registerCodec (r : Registry) : Option Registrant → Status × Registry
  | none => (.errInvalidArgument, r)
  | some v =>
    if v.name = none ∨ v.source = none then (.errInvalidArgument, r)
    else if v.structSize < vtableRequiredSize then (.errInvalidArgument, r)
    else if v.codec = codecNone then (.errInvalidArgument, r)
    else if v.vtable.can canEncode ∧ v.encoder.complete = false then (.errInvalidArgument, r)
    else if v.vtable.can canDecode ∧ v.decoder.complete = false then (.errInvalidArgument, r)
    else if (r.lookup v.codec).isSome then (.errInvalidArgument, r)
    else if wrongIdentity v then (.errInvalidArgument, r)
    else if clashesDeclared v then (.errInvalidArgument, r)
    else if r.clashesRegistered v then (.errInvalidArgument, r)
    else if registryCap ≤ r.entries.length then (.errMemory, r)
    else (.ok, { entries := r.entries ++ [v], generation := r.generation + 1 })

/-- A sequence of registrations, with what each of them answered. -/
def registerAll (r : Registry) : List (Option Registrant) → List Status × Registry
  | [] => ([], r)
  | v :: vs =>
    let (st, r) := r.registerCodec v
    let (sts, r) := r.registerAll vs
    (st :: sts, r)

/-- `zu_codec_lookup`: the declared names first. -/
def codecLookup (r : Registry) : Option CString → CodecId
  | none => codecNone
  | some name => match declared.find? fun d => d.name = name with
    | some d => d.codec
    | none => match r.entries.find? fun e => e.name = some name with
      | some e => e.codec
      | none => codecNone

/-- `zu_codec_from_content_encoding`: the declared tokens first. -/
def codecFromContentEncoding (r : Registry) : Option CString → CodecId
  | none => codecNone
  | some token => match declared.find? fun d => ieqToken d.contentEncoding (some token) with
    | some d => d.codec
    | none => match r.entries.find? fun e => ieqToken e.contentEncoding (some token) with
      | some e => e.codec
      | none => codecNone

end Registry

/-! ## Case-insensitive tokens -/

theorem ieq_iff {a b : List UInt8} : ieq a b = true ↔ a.map asciiLower = b.map asciiLower := by
  induction a generalizing b with
  | nil => cases b <;> simp [ieq]
  | cons x a ih => cases b <;> simp [ieq, ih]

theorem ieqToken_symm {a b : Option CString} (h : ieqToken a b = true) : ieqToken b a = true := by
  cases a <;> cases b <;> simp_all [ieqToken, ieq_iff]

/-- Two tokens that a third one equals are equal. -/
theorem ieqToken_trans {a b c : Option CString} (h : ieqToken a c = true)
    (h' : ieqToken b c = true) : ieqToken a b = true := by
  cases a <;> cases b <;> cases c <;> simp_all [ieqToken, ieq_iff]

/-! ## What an accepted registration says -/

/-- The identity a registered vtable has, over the declared table. -/
structure Registrant.Identified (v : Registrant) : Prop where
  named : v.name.isSome
  nonzero : v.codec ≠ codecNone
  canonical : ∀ d ∈ declared, d.codec = v.codec → v.name = some d.name
  vendor : (∀ d ∈ declared, d.codec ≠ v.codec) → vendorBase ≤ v.codec
  own : ∀ d ∈ declared,
    some d.name = v.name ∨ ieqToken d.contentEncoding v.contentEncoding = true → d.codec = v.codec

/-- Two vtables that share no key. -/
structure Registrant.Apart (v v' : Registrant) : Prop where
  codec : v.codec ≠ v'.codec
  name : v.name ≠ v'.name
  token : ¬ ieqToken v.contentEncoding v'.contentEncoding = true

instance : Std.Symm Registrant.Apart where
  symm _ _ h := ⟨h.codec.symm, h.name.symm, fun ht => h.token (ieqToken_symm ht)⟩

theorem Registrant.identified_of_not {v : Registrant} (hname : v.name ≠ none)
    (hzero : v.codec ≠ codecNone) (hid : Registry.wrongIdentity v = false)
    (hclash : Registry.clashesDeclared v = false) : v.Identified := by
  have hown : ∀ d ∈ declared,
      some d.name = v.name ∨ ieqToken d.contentEncoding v.contentEncoding = true →
        d.codec = v.codec := by
    simp only [Registry.clashesDeclared, List.any_eq_false, decide_eq_true_eq, not_and,
      not_not] at hclash
    exact hclash
  unfold Registry.wrongIdentity declaredFor at hid
  refine ⟨Option.isSome_iff_ne_none.mpr hname, hzero, fun d hd heq => ?_, fun hnone => ?_, hown⟩
  · cases hfind : declared.find? fun d => d.codec = v.codec with
    | none =>
      have := List.find?_eq_none.mp hfind d hd
      simp [heq] at this
    | some d' =>
      simp only [hfind, decide_eq_false_iff_not, not_not] at hid
      have hd' : d'.codec = v.codec := by simpa using List.find?_some hfind
      -- the declared ids are distinct
      have hsame : ∀ a ∈ declared, ∀ b ∈ declared, a.codec = b.codec → a.name = b.name := by decide
      rw [hid, hsame d hd d' (List.mem_of_find?_eq_some hfind) (heq.trans hd'.symm)]
  · have hfind : declared.find? (fun d => d.codec = v.codec) = none :=
      List.find?_eq_none.mpr fun d hd => by simpa using hnone d hd
    simp only [hfind, decide_eq_false_iff_not] at hid
    exact UInt32.not_lt.mp hid

namespace Registry

/-- A registration is refused and changes nothing, or the vtable has an identity of its own
and is appended. -/
theorem registerCodec_cases (r : Registry) (call : Option Registrant) :
    ((r.registerCodec call).1 ≠ .ok ∧ (r.registerCodec call).2 = r) ∨
    ∃ v, call = some v ∧ (r.registerCodec call).1 = .ok ∧ v.Identified ∧
      (∀ e ∈ r.entries, e.Apart v) ∧ r.entries.length < registryCap ∧
      (r.registerCodec call).2 = ⟨r.entries ++ [v], r.generation + 1⟩ := by
  cases call with
  | none => exact .inl ⟨by simp [registerCodec], rfl⟩
  | some v =>
    unfold registerCodec
    dsimp only
    by_cases h1 : v.name = none ∨ v.source = none
    · rw [if_pos h1]
      exact .inl ⟨by simp, rfl⟩
    rw [if_neg h1]
    by_cases h2 : v.structSize < vtableRequiredSize
    · rw [if_pos h2]
      exact .inl ⟨by simp, rfl⟩
    rw [if_neg h2]
    by_cases h3 : v.codec = codecNone
    · rw [if_pos h3]
      exact .inl ⟨by simp, rfl⟩
    rw [if_neg h3]
    by_cases h4 : v.vtable.can canEncode = true ∧ v.encoder.complete = false
    · rw [if_pos h4]
      exact .inl ⟨by simp, rfl⟩
    rw [if_neg h4]
    by_cases h5 : v.vtable.can canDecode = true ∧ v.decoder.complete = false
    · rw [if_pos h5]
      exact .inl ⟨by simp, rfl⟩
    rw [if_neg h5]
    by_cases h6 : (r.lookup v.codec).isSome = true
    · rw [if_pos h6]
      exact .inl ⟨by simp, rfl⟩
    rw [if_neg h6]
    by_cases h7 : wrongIdentity v = true
    · rw [if_pos h7]
      exact .inl ⟨by simp, rfl⟩
    rw [if_neg h7]
    by_cases h8 : clashesDeclared v = true
    · rw [if_pos h8]
      exact .inl ⟨by simp, rfl⟩
    rw [if_neg h8]
    by_cases h9 : r.clashesRegistered v = true
    · rw [if_pos h9]
      exact .inl ⟨by simp, rfl⟩
    rw [if_neg h9]
    by_cases h10 : registryCap ≤ r.entries.length
    · rw [if_pos h10]
      exact .inl ⟨by simp, rfl⟩
    rw [if_neg h10]
    refine .inr ⟨v, rfl, rfl, ?_, fun e he => ?_, by omega, rfl⟩
    · exact Registrant.identified_of_not (fun h => h1 (.inl h)) h3 (by simpa using h7)
        (by simpa using h8)
    · have hclash := (List.any_eq_false.mp (Bool.eq_false_iff.mpr h9)) e he
      simp only [decide_eq_true_eq, not_or] at hclash
      refine ⟨fun heq => ?_, hclash.1, hclash.2⟩
      simp only [lookup, h3, if_false, Option.not_isSome_iff_eq_none] at h6
      have := List.find?_eq_none.mp h6 e he
      simp [heq] at this

/-- What holds of the table after any registrations. -/
structure Sound (r : Registry) : Prop where
  identified : ∀ e ∈ r.entries, e.Identified
  apart : r.entries.Pairwise Registrant.Apart
  capacity : r.entries.length ≤ registryCap
  generation : r.generation.toNat = r.entries.length

theorem sound_empty : Sound .empty :=
  ⟨by simp [empty], by simp [empty], by simp [empty], by simp [empty]⟩

/-- A registration keeps the table sound. -/
theorem Sound.registerCodec {r : Registry} (h : r.Sound) (call : Option Registrant) :
    (r.registerCodec call).2.Sound := by
  rcases r.registerCodec_cases call with ⟨-, heq⟩ | ⟨v, -, -, hid, hapart, hroom, heq⟩
  · rwa [heq]
  rw [heq]
  refine ⟨fun e he => ?_, ?_, ?_, ?_⟩
  · rcases List.mem_append.mp he with he | he
    · exact h.identified e he
    · obtain rfl := List.mem_singleton.mp he
      exact hid
  · refine List.pairwise_append.mpr ⟨h.apart, List.pairwise_singleton _ _, fun e he e' he' => ?_⟩
    obtain rfl := List.mem_singleton.mp he'
    exact hapart e he
  · simp only [List.length_append, List.length_singleton]
    omega
  · have hgen := h.generation
    simp only [registryCap] at hroom
    simp only [List.length_append, List.length_singleton, UInt64.toNat_add, UInt64.toNat_one]
    omega

/-- Registrations keep the table sound, and each that succeeds counts. -/
theorem Sound.registerAll {r : Registry} (h : r.Sound) (calls : List (Option Registrant)) :
    (r.registerAll calls).2.Sound ∧ (r.registerAll calls).2.generation.toNat =
      r.generation.toNat + (r.registerAll calls).1.count .ok := by
  induction calls generalizing r with
  | nil => exact ⟨h, by simp [Registry.registerAll]⟩
  | cons call calls ih =>
    have hnext := h.registerCodec call
    obtain ⟨hsound, hcount⟩ := ih hnext
    refine ⟨hsound, ?_⟩
    simp only [Registry.registerAll, hcount]
    rcases r.registerCodec_cases call with ⟨hne, heq⟩ | ⟨v, -, hok, -, -, -, heq⟩
    · rw [List.count_cons_of_ne hne, heq]
    · rw [hok, List.count_cons_self, hnext.generation, heq, h.generation]
      simp only [List.length_append, List.length_singleton]
      omega

/-! ## Lookup -/

/-- The declared names and tokens are each one codec's. -/
theorem declared_unique : ∀ d ∈ declared, ∀ d' ∈ declared,
    d.name = d'.name ∨ ieqToken d.contentEncoding d'.contentEncoding = true →
      d.codec = d'.codec := by decide

theorem codecLookup_declared (r : Registry) {d : Declared} (hd : d ∈ declared) :
    r.codecLookup (some d.name) = d.codec := by
  unfold codecLookup
  dsimp only
  cases hfind : declared.find? fun d' => d'.name = d.name with
  | none =>
    have := List.find?_eq_none.mp hfind d hd
    simp at this
  | some d' =>
    exact declared_unique d' (List.mem_of_find?_eq_some hfind) d hd
      (.inl (by simpa using List.find?_some hfind))

theorem codecFromContentEncoding_declared (r : Registry) {d : Declared} (hd : d ∈ declared)
    {token : CString} (htoken : ieqToken d.contentEncoding (some token) = true) :
    r.codecFromContentEncoding (some token) = d.codec := by
  unfold codecFromContentEncoding
  dsimp only
  cases hfind : declared.find? fun d' => ieqToken d'.contentEncoding (some token) with
  | none =>
    have := List.find?_eq_none.mp hfind d hd
    simp [htoken] at this
  | some d' =>
    exact declared_unique d' (List.mem_of_find?_eq_some hfind) d hd
      (.inr (ieqToken_trans (by simpa using List.find?_some hfind) htoken))

theorem Sound.eq_of_shared {r : Registry} (h : r.Sound) {e e' : Registrant}
    (he : e ∈ r.entries) (he' : e' ∈ r.entries)
    (hshare : e.name = e'.name ∨
      ieqToken e.contentEncoding e'.contentEncoding = true) : e = e' := by
  by_contra hne
  have hapart := h.apart.forall he he' hne
  exact hshare.elim hapart.name hapart.token

theorem Sound.codecLookup {r : Registry} (h : r.Sound) {e : Registrant} (he : e ∈ r.entries) :
    r.codecLookup e.name = e.codec := by
  have hid := h.identified e he
  obtain ⟨name, hname⟩ := Option.isSome_iff_exists.mp hid.named
  rw [hname]
  unfold Registry.codecLookup
  dsimp only
  cases hfind : declared.find? fun d => d.name = name with
  | some d =>
    exact hid.own d (List.mem_of_find?_eq_some hfind)
      (.inl (by rw [hname]; simpa using List.find?_some hfind))
  | none =>
    cases hreg : r.entries.find? fun e => e.name = some name with
    | none =>
      have := List.find?_eq_none.mp hreg e he
      simp [hname] at this
    | some e' =>
      have hsame : e'.name = e.name := by
        rw [hname]
        simpa using List.find?_some hreg
      rw [h.eq_of_shared (List.mem_of_find?_eq_some hreg) he (.inl hsame)]

theorem Sound.codecFromContentEncoding {r : Registry} (h : r.Sound) {e : Registrant}
    (he : e ∈ r.entries) {token : CString}
    (htoken : ieqToken e.contentEncoding (some token) = true) :
    r.codecFromContentEncoding (some token) = e.codec := by
  unfold Registry.codecFromContentEncoding
  dsimp only
  cases hfind : declared.find? fun d => ieqToken d.contentEncoding (some token) with
  | some d =>
    exact (h.identified e he).own d (List.mem_of_find?_eq_some hfind)
      (.inr (ieqToken_trans (by simpa using List.find?_some hfind) htoken))
  | none =>
    cases hreg : r.entries.find? fun e => ieqToken e.contentEncoding (some token) with
    | none =>
      have := List.find?_eq_none.mp hreg e he
      simp [htoken] at this
    | some e' =>
      have hsame := ieqToken_trans (by simpa using List.find?_some hreg) htoken
      rw [h.eq_of_shared (List.mem_of_find?_eq_some hreg) he (.inr hsame)]

/-- The identities of a registry: keys are not shared, declared names and ids go together,
and every name and token resolves to the codec that has it. -/
structure Identity (r : Registry) : Prop where
  apart : r.entries.Pairwise Registrant.Apart
  declaredName : ∀ e ∈ r.entries, ∀ d ∈ declared, e.name = some d.name ↔ e.codec = d.codec
  vendor : ∀ e ∈ r.entries, (∀ d ∈ declared, e.codec ≠ d.codec) → vendorBase ≤ e.codec
  name : ∀ e ∈ r.entries, r.codecLookup e.name = e.codec
  token : ∀ e ∈ r.entries, ∀ t, ieqToken e.contentEncoding (some t) = true →
    r.codecFromContentEncoding (some t) = e.codec
  keptName : ∀ d ∈ declared, r.codecLookup (some d.name) = d.codec
  keptToken : ∀ d ∈ declared, ∀ t, ieqToken d.contentEncoding (some t) = true →
    r.codecFromContentEncoding (some t) = d.codec
  capacity : r.entries.length ≤ registryCap

/-- After any registrations the identities are in order, the generation counts those that
succeeded, and a call that does not succeed changes nothing. -/
theorem registry_identity (calls : List (Option Registrant)) :
    (empty.registerAll calls).2.Identity ∧
    (empty.registerAll calls).2.generation.toNat = (empty.registerAll calls).1.count .ok ∧
    ∀ call, ((empty.registerAll calls).2.registerCodec call).1 ≠ .ok →
      ((empty.registerAll calls).2.registerCodec call).2 = (empty.registerAll calls).2 := by
  obtain ⟨h, hcount⟩ := sound_empty.registerAll calls
  refine ⟨⟨h.apart, fun e he d hd => ⟨fun hname => ?_, fun hcodec => ?_⟩, fun e he hnone => ?_,
    fun e he => h.codecLookup he, fun e he t ht => h.codecFromContentEncoding he ht,
    fun d hd => codecLookup_declared _ hd,
    fun d hd t ht => codecFromContentEncoding_declared _ hd ht, h.capacity⟩, ?_, fun call hne => ?_⟩
  · exact ((h.identified e he).own d hd (.inl hname.symm)).symm
  · exact (h.identified e he).canonical d hd hcodec.symm
  · exact (h.identified e he).vendor fun d hd => (hnone d hd).symm
  · simpa [empty] using hcount
  · rcases (empty.registerAll calls).2.registerCodec_cases call with ⟨-, heq⟩ | ⟨_, -, hok, -⟩
    · exact heq
    · exact absurd hok hne

end Registry

end Zukomp
