import Zukomp.Builtins
import Zukomp.Core.Listing
import Zukomp.Core.Sniff

/-! # The registry of a loaded package, zu_int_register_builtin_codecs

Loading the package registers the built-in codecs. Other packages may register their own later on,
and take nothing away from these.
-/

namespace Zukomp

open Library

def vtableSize : UInt32 := 160

def zukompSource : CString := cstring ['z', 'u', 'k', 'o', 'm', 'p']

/-- A vtable of this package, with every entry point. -/
def builtinRegistrant (v : CodecVtable) (name : CString) (contentEncoding : Option CString)
    (magic : Option (List UInt8)) (sniff : Option (List UInt8 → Bool)) : Registrant where
  structSize := vtableSize
  name := some name
  contentEncoding := contentEncoding
  source := some zukompSource
  magic := magic
  magicOffset := 0
  sniff := sniff
  encoder := ⟨true, true, true⟩
  decoder := ⟨true, true, true⟩
  vtable := v

namespace Builtin

def nameChars : Builtin → List Char
  | .identity => ['i', 'd', 'e', 'n', 't', 'i', 't', 'y']
  | .deflateRaw => ['d', 'e', 'f', 'l', 'a', 't', 'e', '-', 'r', 'a', 'w']
  | .zlib => ['z', 'l', 'i', 'b']
  | .gzip => ['g', 'z', 'i', 'p']
  | .zstd => ['z', 's', 't', 'd']
  | .lz4Frame => ['l', 'z', '4', '-', 'f', 'r', 'a', 'm', 'e']
  | .lz4Block => ['l', 'z', '4', '-', 'b', 'l', 'o', 'c', 'k']

theorem noNul_name (b : Builtin) : 0 ∉ b.nameChars.map fun c => c.toNat.toUInt8 := by
  cases b <;> decide

def name (b : Builtin) : CString := cstring b.nameChars b.noNul_name

theorem noNul_deflate :
    0 ∉ ['d', 'e', 'f', 'l', 'a', 't', 'e'].map fun c => c.toNat.toUInt8 := by decide

/-- The HTTP token `deflate` means zlib. -/
def contentEncoding : Builtin → Option CString
  | .zlib => some (cstring ['d', 'e', 'f', 'l', 'a', 't', 'e'] noNul_deflate)
  | .identity => some (name .identity)
  | .gzip => some (name .gzip)
  | .zstd => some (name .zstd)
  | .deflateRaw | .lz4Frame | .lz4Block => none

def magic : Builtin → Option (List UInt8)
  | .gzip => some gzipMagic
  | .zstd => some [0x28, 0xB5, 0x2F, 0xFD]
  | .lz4Frame => some [0x04, 0x22, 0x4D, 0x18]
  | .identity | .deflateRaw | .zlib | .lz4Block => none

def sniff : Builtin → Option (List UInt8 → Bool)
  | .zlib => some zlibSniff
  | .identity | .deflateRaw | .gzip | .zstd | .lz4Frame | .lz4Block => none

/-- The id that is declared for the name. -/
def id : Builtin → CodecId
  | .identity => 1
  | .deflateRaw => 2
  | .zlib => 3
  | .gzip => 4
  | .zstd => 17
  | .lz4Frame => 18
  | .lz4Block => 19

/-- `level_fast` and `level_best` -/
def levels : Builtin → AbstractLevels
  | .identity => ⟨0, 0⟩
  | .deflateRaw | .zlib | .gzip => ⟨1, 9⟩
  | .zstd => ⟨1, 19⟩
  | .lz4Frame | .lz4Block => ⟨1, 12⟩

/-- No two share a key. -/
theorem apart {b b' : Builtin} (h : b ≠ b') : b.id ≠ b'.id ∧
    ¬ (some b.name = some b'.name ∨ ieqToken b.contentEncoding b'.contentEncoding = true) := by
  cases b <;> cases b' <;> first | exact absurd rfl h | exact ⟨by decide, by decide⟩

end Builtin

namespace Libraries

variable {K : Libraries}

def registrant (K : Libraries) (b : Builtin) : Registrant :=
  builtinRegistrant (K.codec b) b.name b.contentEncoding b.magic b.sniff

/-- In the order of `zu_int_register_builtin_codecs`. -/
def builtins : List Builtin := [.identity, .deflateRaw, .zlib, .gzip, .zstd, .lz4Frame, .lz4Block]

theorem mem_builtins (b : Builtin) : b ∈ builtins := by
  cases b <;> simp [builtins]

/-- What loading the package makes of the empty table. -/
def registerBuiltins (K : Libraries) : List Status × Registry :=
  Registry.empty.registerAll (builtins.map fun b => some (K.registrant b))

theorem registrant_identity (K : Libraries) (b : Builtin) :
    Registry.wrongIdentity (K.registrant b) = false ∧
      Registry.clashesDeclared (K.registrant b) = false := by
  cases b <;> exact ⟨rfl, rfl⟩

theorem registrant_codec (K : Libraries) (b : Builtin) : (K.registrant b).codec = b.id := by
  cases b <;> rfl

/-- One more built-in codec, behind others. -/
theorem registerCodec_builtin {r : Registry} {done : List Builtin} {b : Builtin}
    (hr : r.entries = done.map K.registrant) (hnew : b ∉ done) (hroom : done.length < registryCap) :
    r.registerCodec (some (K.registrant b)) =
      (.ok, ⟨(done ++ [b]).map K.registrant, r.generation + 1⟩) := by
  have hid : b.id ≠ codecNone := by cases b <;> decide
  have hapart {e : Registrant} (he : e ∈ r.entries) : e.codec ≠ (K.registrant b).codec ∧
      ¬ (e.name = (K.registrant b).name ∨
        ieqToken e.contentEncoding (K.registrant b).contentEncoding = true) := by
    rw [hr] at he
    obtain ⟨b', hb', rfl⟩ := List.mem_map.mp he
    rw [registrant_codec, registrant_codec]
    exact Builtin.apart fun h => hnew (h ▸ hb')
  have hlookup : ¬ (r.lookup (K.registrant b).codec).isSome = true := by
    rw [Registry.lookup, if_neg (by rw [registrant_codec]; exact hid), Option.not_isSome_iff_eq_none,
      List.find?_eq_none]
    exact fun e he => by simpa using (hapart he).1
  have hclash : ¬ r.clashesRegistered (K.registrant b) = true := by
    rw [Registry.clashesRegistered, List.any_eq_true]
    rintro ⟨e, he, h⟩
    exact (hapart he).2 (by simpa using h)
  obtain ⟨hidentity, hdeclared⟩ := registrant_identity K b
  have hfull : ¬ registryCap ≤ r.entries.length := by
    rw [hr, List.length_map]
    omega
  have hencoder (can : Bool) : ¬ (can = true ∧ (K.registrant b).encoder.complete = false) := by
    simp [registrant, builtinRegistrant, EntryPoints.complete]
  have hdecoder (can : Bool) : ¬ (can = true ∧ (K.registrant b).decoder.complete = false) := by
    simp [registrant, builtinRegistrant, EntryPoints.complete]
  have hsize : ¬ (K.registrant b).structSize < vtableRequiredSize :=
    show ¬ vtableSize < vtableRequiredSize by decide
  unfold Registry.registerCodec
  dsimp only
  rw [if_neg (by simp [registrant, builtinRegistrant]), if_neg hsize,
    if_neg (by rw [registrant_codec]; exact hid), if_neg (hencoder _), if_neg (hdecoder _),
    if_neg hlookup, if_neg (by simp [hidentity]), if_neg (by simp [hdeclared]), if_neg hclash,
    if_neg hfull, hr, List.map_append, List.map_singleton]

/-- Every built-in codec is accepted, whatever their order. -/
theorem registerAll_builtins {r : Registry} {done bs : List Builtin}
    (hr : r.entries = done.map K.registrant) (hnodup : (done ++ bs).Nodup)
    (hroom : (done ++ bs).length ≤ registryCap) :
    (r.registerAll (bs.map fun b => some (K.registrant b))).1 = List.replicate bs.length .ok ∧
      (r.registerAll (bs.map fun b => some (K.registrant b))).2.entries =
        (done ++ bs).map K.registrant := by
  induction bs generalizing r done with
  | nil => exact ⟨rfl, by simpa [Registry.registerAll] using hr⟩
  | cons b bs ih =>
    have hnew : b ∉ done := fun hb => (List.disjoint_of_nodup_append hnodup) hb (by simp)
    have hlen : done.length < registryCap := by
      rw [List.length_append, List.length_cons] at hroom
      omega
    have hstep := registerCodec_builtin (K := K) hr hnew hlen
    rw [List.append_cons] at hnodup hroom ⊢
    obtain ⟨hsts, hentries⟩ := ih (r := ⟨(done ++ [b]).map K.registrant, r.generation + 1⟩) rfl
      hnodup hroom
    rw [List.map_cons, Registry.registerAll, hstep]
    exact ⟨congrArg (Status.ok :: ·) hsts, hentries⟩

theorem builtins_nodup : builtins.Nodup := by decide

theorem registerBuiltins_ok (K : Libraries) : K.registerBuiltins.1 = List.replicate 7 .ok ∧
    K.registerBuiltins.2.entries = builtins.map K.registrant := by
  have hempty : Registry.empty.entries = List.map K.registrant [] := rfl
  exact registerAll_builtins hempty builtins_nodup (by decide)

/-- A table that other packages have registered codecs in since this one was loaded. -/
def Loaded (K : Libraries) (r : Registry) : Prop :=
  ∃ calls, r = (K.registerBuiltins.2.registerAll calls).2

end Libraries

namespace Registry

theorem registerCodec_prefix (r : Registry) (call : Option Registrant) :
    r.entries <+: (r.registerCodec call).2.entries := by
  rcases r.registerCodec_cases call with ⟨-, heq⟩ | ⟨v, -, -, -, -, -, heq⟩
  · rw [heq]
  · rw [heq]
    exact List.prefix_append ..

theorem registerAll_prefix (r : Registry) (calls : List (Option Registrant)) :
    r.entries <+: (r.registerAll calls).2.entries := by
  induction calls generalizing r with
  | nil => exact List.prefix_rfl
  | cons call calls ih => exact (r.registerCodec_prefix call).trans (ih _)

end Registry

namespace Libraries.Loaded

variable {K : Libraries} {r : Registry}

theorem sound (h : K.Loaded r) : r.Sound := by
  obtain ⟨calls, rfl⟩ := h
  exact ((Registry.sound_empty.registerAll _).1.registerAll calls).1

theorem mem (h : K.Loaded r) (b : Builtin) : K.registrant b ∈ r.entries := by
  obtain ⟨calls, rfl⟩ := h
  refine (Registry.registerAll_prefix _ calls).subset ?_
  rw [(registerBuiltins_ok K).2]
  exact List.mem_map_of_mem (mem_builtins b)

theorem lookup (h : K.Loaded r) (b : Builtin) : r.lookup b.id = some (K.registrant b) := by
  have hid : (K.registrant b).codec ≠ codecNone := by
    rw [registrant_codec]
    cases b <;> decide
  obtain ⟨v, hv⟩ := Option.isSome_iff_exists.mp (Registry.lookup_entry (h.mem b) hid)
  obtain ⟨hmem, hcodec⟩ := Registry.lookup_codec hv
  rw [← registrant_codec K b, hv, h.sound.eq_of_codec hmem (h.mem b) hcodec]

theorem codecLookup (h : K.Loaded r) (b : Builtin) : r.codecLookup (some b.name) = b.id := by
  rw [← registrant_codec K b]
  exact h.sound.codecLookup (h.mem b)

end Libraries.Loaded

/-- `level_fast` and `level_best` of the vtables of this package. -/
def builtinLevels (v : Registrant) : AbstractLevels :=
  match Libraries.builtins.find? fun b => b.id = v.codec with
  | some b => b.levels
  | none => ⟨0, 0⟩

end Zukomp
