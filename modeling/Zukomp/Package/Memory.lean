import Zukomp.Package.RoundTrip
import Zukomp.Served

/-! # The package over an allocator, zukomp_r.c

The drive loop fills a block of memory, and R is given the bytes of the block. It is given what it
would be of a list of bytes, or the memory condition where the allocator refuses to grow the block.
-/

namespace Zukomp.Package

open Library

/-! ## The calls -/

/-- `zu_int_whole` with its sink in memory. -/
def IntWholeIn (H : Heap) (heap : H.State) (r : Registry) (a : WholeArgs)
    (result : Status × List UInt8) : Prop :=
  match a.opts r with
  | .error st => result = (st, [])
  | .ok opts => ∃ o, RunsInto H (vtableOf r) opts heap .fresh (result.1, o) ∧ result.2 = o.contents

/-- The call of C and what `zu_finish` makes of it. -/
def FinishesIn (H : Heap) (heap : H.State) (r : Registry) (args : Except Condition WholeArgs)
    (res : Except Condition (List UInt8)) : Prop :=
  match args with
  | .error c => res = .error c
  | .ok a => ∃ result, IntWholeIn H heap r a result ∧ res = finish result a.codec a.src

section Calls

variable (H : Heap) (heap : H.State) (levels : Registrant → AbstractLevels) (r : Registry)
  (c : TableCache)

/-- `komp_compress`: what it returns or raises, if it does. -/
def KompCompressesIn (x codec level : RValue) (res : Except Condition (List UInt8)) : Prop :=
  FinishesIn H heap r (compressArgs (c.codecTable levels r).1 x codec level) res

/-- `komp_decompress`: what it returns or raises, if it does. -/
def KompDecompressesIn (x codec maxOutput maxRatio : RValue)
    (res : Except Condition (List UInt8)) : Prop :=
  FinishesIn H heap r (decompressArgs levels r (c.codecTable levels r).1 x codec maxOutput maxRatio)
    res

end Calls

/-! ## Refinement -/

/-- The allocator refuses the block that a turn of the call asks for. -/
def CallRefused (H : Heap) (heap : H.State) (r : Registry) (args : Except Condition WholeArgs) :
    Prop :=
  ∃ a o, args = .ok a ∧ a.opts r = .ok o ∧ RunRefused H (vtableOf r) o heap .fresh

/-- `zukomp_memory_error` -/
def OutOfMemory (res : Except Condition (List UInt8)) : Prop :=
  ∃ k, res = .error k ∧ k.conditionClass = .memoryError ∧ k.nativeStatus = some .errMemory

/-- The results with the sink in memory are those without, unless memory is refused; there is a
result wherever there is one without. -/
structure RefinesIn (Refused : Prop) (P P' : Except Condition (List UInt8) → Prop) : Prop where
  results : ∀ res, P res → P' res ∨ Refused ∧ OutOfMemory res
  returns : ∀ res', P' res' → ∃ res, P res

variable {H : Heap} {heap : H.State} {levels : Registrant → AbstractLevels} {r : Registry}
  {c : TableCache} {a : WholeArgs}

theorem opts_codec {o : RunOpts} (h : a.opts r = .ok o) : o.codec = r.codecLookup a.codec := by
  unfold WholeArgs.opts at h
  split at h
  · by_cases hnone : r.codecLookup a.codec = codecNone
    · rw [if_pos hnone] at h
      cases h
    · rw [if_neg hnone] at h
      cases h
      rfl
  · cases h

theorem intWholeIn_error {st : Status} (h : a.opts r = .error st) :
    IntWholeIn H heap r a = IntWhole r a := by
  funext result
  rw [IntWholeIn, IntWhole, h]

/-- The whole call, over a codec that looks at nothing but its windows and keeps to them. -/
theorem finishesIn_refines {args : Except Condition WholeArgs}
    (hargs : ∀ a v, args = .ok a → vtableOf r (r.codecLookup a.codec) = some v →
      v.Serves ∧ v.Uniform) :
    RefinesIn (CallRefused H heap r args) (FinishesIn H heap r args) (Finishes r args) := by
  cases args with
  | error k => exact ⟨fun _ h => .inl h, fun res h => ⟨res, h⟩⟩
  | ok a =>
    unfold FinishesIn Finishes
    dsimp only
    cases hopts : a.opts r with
    | error st =>
      rw [intWholeIn_error hopts]
      exact ⟨fun _ h => .inl h, fun res h => ⟨res, h⟩⟩
    | ok o =>
      have hcodec := opts_codec hopts
      have hrefines : Refines (RunRefused H (vtableOf r) o heap .fresh)
          (RunsInto H (vtableOf r) o heap .fresh) (RunsWhole (vtableOf r) o .empty) :=
        RunsInto.refines (fun v hv => hargs a v rfl (hcodec ▸ hv)) Sink.fresh_fits rfl
          Sink.fresh_holds
      constructor
      · rintro _ ⟨⟨st, bytes⟩, hwhole, rfl⟩
        unfold IntWholeIn at hwhole
        rw [hopts] at hwhole
        obtain ⟨sink, hrun, rfl : bytes = sink.contents⟩ := hwhole
        rcases hrefines.ends _ hrun with ⟨⟨st', out⟩, hrun', hends⟩ | ⟨hst, hrefuses, -⟩
        · obtain rfl : st = st' := hends.status
          refine .inl ⟨(st, sink.contents), ?_, rfl⟩
          unfold IntWhole
          rw [hopts]
          exact ⟨out, hrun', hends.holds.contents⟩
        · obtain rfl : st = .errMemory := hst
          exact .inr ⟨⟨a, o, rfl, hopts, hrefuses⟩, _, rfl, rfl, rfl⟩
      · rintro _ ⟨⟨st, bytes⟩, hwhole, rfl⟩
        unfold IntWhole at hwhole
        rw [hopts] at hwhole
        obtain ⟨out, hrun, -⟩ := hwhole
        obtain ⟨⟨st', sink⟩, hrun'⟩ := hrefines.returns _ hrun
        refine ⟨_, (st', sink.contents), ?_, rfl⟩
        unfold IntWholeIn
        rw [hopts]
        exact ⟨sink, hrun', rfl⟩

theorem vtableOf_mem {codec : CodecId} {v : CodecVtable} (h : vtableOf r codec = some v) :
    ∃ e ∈ r.entries, e.vtable = v := by
  obtain ⟨e, he, rfl⟩ := Option.map_eq_some_iff.mp h
  exact ⟨e, (Registry.lookup_codec he).1, rfl⟩

/-- Whatever is true of `komp_compress` and `komp_decompress` over lists of bytes is true of them
over memory, except that they raise `zukomp_memory_error` where the allocator refuses a block. -/
theorem komp_refines {K : Libraries} (hz : K.lz4.Confined) (H : Heap) (heap : H.State)
    (levels : Registrant → AbstractLevels)
    (hr : ∀ e ∈ r.entries, e.vtable ∈ K.codecs ∨ e.vtable.Serves ∧ e.vtable.Uniform)
    (c : TableCache) :
    (∀ x codec level,
      RefinesIn (CallRefused H heap r (compressArgs (c.codecTable levels r).1 x codec level))
        (KompCompressesIn H heap levels r c x codec level)
        (KompCompresses levels r c x codec level)) ∧
    ∀ x codec maxOutput maxRatio,
      RefinesIn (CallRefused H heap r
          (decompressArgs levels r (c.codecTable levels r).1 x codec maxOutput maxRatio))
        (KompDecompressesIn H heap levels r c x codec maxOutput maxRatio)
        (KompDecompresses levels r c x codec maxOutput maxRatio) := by
  have hserves {codec : CodecId} {v : CodecVtable} (h : vtableOf r codec = some v) :
      v.Serves ∧ v.Uniform := by
    obtain ⟨e, he, rfl⟩ := vtableOf_mem h
    rcases hr e he with hbuiltin | hother
    · exact ⟨Libraries.codecs_serve hz hbuiltin, Libraries.codecs_uniform hbuiltin⟩
    · exact hother
  exact ⟨fun x codec level => finishesIn_refines fun a v _ => hserves,
    fun x codec maxOutput maxRatio => finishesIn_refines fun a v _ => hserves⟩

theorem granting_calls {args : Except Condition WholeArgs} : ¬ CallRefused granting () r args := by
  rintro ⟨_, _, _, _, h⟩
  exact granting_grants h

theorem registerBuiltins_mem {K : Libraries} {e : Registrant}
    (he : e ∈ K.registerBuiltins.2.entries) : e.vtable ∈ K.codecs := by
  rw [(Libraries.registerBuiltins_ok K).2] at he
  obtain ⟨b, -, rfl⟩ := List.mem_map.mp he
  exact Libraries.mem_codecs.mpr ⟨b, rfl⟩

theorem komp_refines_letter : ∃ res,
    KompCompressesIn granting () builtinLevels Libraries.summed.registerBuiltins.2 ⟨none, none⟩
        (.raw [0x61]) (.character [some (Builtin.name .zstd)]) .null res ∧
      KompCompresses builtinLevels Libraries.summed.registerBuiltins.2 ⟨none, none⟩ (.raw [0x61])
        (.character [some (Builtin.name .zstd)]) .null res := by
  have hrefines := (komp_refines (K := Libraries.summed) refLz4_confined granting () builtinLevels
    (fun e he => .inl (registerBuiltins_mem he)) ⟨none, none⟩).1 (.raw [0x61])
    (.character [some (Builtin.name .zstd)]) .null
  obtain ⟨res, hres⟩ := hrefines.returns _ summed_compresses
  exact ⟨res, hres, (hrefines.results res hres).resolve_right fun hout => granting_calls hout.1⟩

/-! ## The round trip -/

theorem Session.serves {K : Libraries} {b : Builtin} (hz : K.lz4.Confined)
    (h : Session K levels r c) {v : CodecVtable}
    (hv : Package.vtableOf r (r.codecLookup b.name) = some v) : v.Serves ∧ v.Uniform := by
  rw [h.loaded.codecLookup b, h.vtableOf b] at hv
  obtain rfl := Option.some.inj hv
  have hmem : K.codec b ∈ K.codecs := Libraries.mem_codecs.mpr ⟨b, rfl⟩
  exact ⟨Libraries.codecs_serve hz hmem, Libraries.codecs_uniform hmem⟩

theorem OutOfMemory.not_ok {z : List UInt8} : ¬ OutOfMemory (.ok z) := by
  rintro ⟨k, hk, -⟩
  cases hk

/-- A call has one result. -/
theorem Finishes.unique {args : Except Condition WholeArgs} {res res' : Except Condition (List UInt8)}
    (h : Finishes r args res) (h' : Finishes r args res') : res = res' := by
  cases args with
  | error k => exact Eq.trans h (Eq.symm h')
  | ok a =>
    obtain ⟨⟨st, bytes⟩, hwhole, rfl⟩ := h
    obtain ⟨⟨st', bytes'⟩, hwhole', rfl⟩ := h'
    unfold IntWhole at hwhole hwhole'
    cases hopts : a.opts r with
    | error st =>
      rw [hopts] at hwhole hwhole'
      rw [Eq.trans hwhole (Eq.symm hwhole')]
    | ok o =>
      rw [hopts] at hwhole hwhole'
      obtain ⟨out, hrun, rfl : bytes = out.used⟩ := hwhole
      obtain ⟨out', hrun', rfl : bytes' = out'.used⟩ := hwhole'
      cases hrun.unique hrun'
      rfl

end Zukomp.Package
