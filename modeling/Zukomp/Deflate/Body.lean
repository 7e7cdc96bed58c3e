import Zukomp.Deflate.Course

/-! # Decoding the header and the body of a member

Each turn keeps the decoder's place in the stream, except where the engine is starved by the
clamp on its input.
-/

namespace Zukomp

open Library

variable {E : MzStream} {Valid : Progressive UInt8 → Prop}

section Turns

variable {I : Inflates E Valid} {wrap : WrapKind} {decFlags : UInt32} {ms pre post : List Member}
  {m : Member} {junk : List UInt8} {fails : Prop} {p q : ℕ} {s s' : DeflateState E} {w : Window}
  {last : Bool} {mode : Flush}

theorem zlibCheckHeader_valid {hdr : List UInt8} {cmf flg : UInt8}
    (hread : hdr.take 2 = [cmf, flg]) (hcm : cmf &&& 0x0F = 8) (hcinfo : cmf >>> 4 ≤ 7)
    (hcheck : (cmf.toNat * 256 + flg.toNat) % 31 = 0) (hdict : flg &&& 0x20 = 0) :
    zlibCheckHeader hdr = .ok := by
  obtain ⟨rest, rfl⟩ : ∃ rest, hdr = cmf :: flg :: rest :=
    ⟨hdr.drop 2, by rw [← List.take_append_drop 2 hdr, hread]; rfl⟩
  have hle : (cmf >>> 4) &&& 0x0F ≤ (7 : UInt8) := by
    rw [UInt8.le_iff_toNat_le] at hcinfo ⊢
    rw [UInt8.toNat_and]
    exact Nat.and_le_left.trans hcinfo
  simp [zlibCheckHeader, hcm, hcheck, hdict, UInt8.not_lt.mpr hle]

theorem zlibHeader_keeps (hsplit : Split wrap Valid decFlags ms junk pre m post)
    (hd : Decodes wrap decFlags s) (hs : s.state = .header) (hw : s.wrap = .zlib)
    (hprobe : s.probeMagic = false) (henc : FreshEngine I s) (hsum : Summed s [])
    (hpos : s.hdrPos ≤ 2) (hread : s.hdr.take s.hdrPos = m.head.take s.hdrPos)
    (hx : (tailedCoding ms junk).Shows ((Member.codes pre).length + s.hdrPos) w.input
      (mode = .finish)) :
    Keeps I wrap decFlags ms junk fails ((Member.codes pre).length + s.hdrPos)
      ((Member.texts pre).length + 0) w (mode == .finish) (headerStep s w mode) := by
  obtain rfl : wrap = .zlib := hd.wrap_eq.symm.trans hw
  obtain ⟨cmf, flg, hhead, hcm, hcinfo, hcheck, hdict⟩ := hsplit.head
  have hlen : m.head.length = 2 := by simp [hhead]
  have hcode := m.length_code
  unfold headerStep
  rw [if_neg (by simp [hd.encoder]), if_neg (by simp [hw])]
  by_cases hlt : s.hdrPos < s.hdrLen
  · rw [if_pos hlt]
    rw [hd.hdrLen] at hlt
    have hlt2 : s.hdrPos < 2 := hlt
    cases hwi : w.input with
    | nil =>
      exact keeps_missing hx hwi
        (hsplit.at_ hd (.zlibHeader hs hw hprobe henc hsum hpos hread))
        (hsplit.lt (by omega)) (hsplit.not_textReady (.inl (by omega)))
    | cons b rest =>
      refine keeps_take (by simp [hwi]) (hsplit.lt (by omega)) ?_
      have hdrop : m.head.drop s.hdrPos = b :: (m.head.drop s.hdrPos).tail := by
        rw [hwi] at hx
        exact hsplit.head_drop hx (by omega)
      rw [Nat.add_assoc]
      refine hsplit.at_ ?_ ?_
      · exact hd.of_eq rfl rfl (by simp)
      refine .zlibHeader hs hw hprobe henc hsum hlt2 ?_
      exact take_set_of_drop (by have := hd.hdr; omega) hread hdrop
  · rw [if_neg hlt]
    rw [hd.hdrLen] at hlt
    have htwo : s.hdrPos = 2 := by
      have : ¬ s.hdrPos < 2 := hlt
      omega
    have hok : zlibCheckHeader s.hdr = .ok := by
      rw [htwo, hhead] at hread
      exact zlibCheckHeader_valid hread hcm hcinfo hcheck hdict
    rw [if_neg (by simp [hok])]
    rw [htwo, ← hlen]
    refine keeps_stay (hsplit.at_ ?_ ?_)
    · exact hd.of_eq rfl rfl rfl
    · exact enter_body rfl henc hsum hprobe hsplit.body

theorem gzipHeader_keeps (hsplit : Split wrap Valid decFlags ms junk pre m post)
    (hd : Decodes wrap decFlags s) (hs : s.state = .header) (hw : s.wrap = .gzip)
    (hprobe : s.probeMagic = false) (henc : FreshEngine I s) (hsum : Summed s []) {k : ℕ}
    (hk : k < m.head.length) (hawaits : s.gz.Awaits (m.head.drop k))
    (hx : (tailedCoding ms junk).Shows ((Member.codes pre).length + k) w.input (mode = .finish)) :
    Keeps I wrap decFlags ms junk fails ((Member.codes pre).length + k)
      ((Member.texts pre).length + 0) w (mode == .finish) (headerStep s w mode) := by
  have hcode := m.length_code
  unfold headerStep
  rw [if_neg (by simp [hd.encoder]), if_pos hw]
  cases hwi : w.input with
  | nil =>
    exact keeps_missing hx hwi (hsplit.at_ hd (.gzipHeader hs hw hprobe henc hsum hk hawaits))
      (hsplit.lt (by omega)) (hsplit.not_textReady (.inl hk))
  | cons b rest =>
    rw [hwi] at hx
    rw [hsplit.head_drop hx hk, List.tail_drop] at hawaits
    obtain ⟨gz, hfeed, hnext⟩ := hawaits.feed
    simp only [hfeed]
    cases hrest : (m.head.drop (k + 1)).isEmpty with
    | true =>
      have hlast : m.head.length = k + 1 := by
        rw [List.isEmpty_iff, List.drop_eq_nil_iff] at hrest
        omega
      refine keeps_take (by simp [hwi]) (hsplit.lt (by omega)) ?_
      rw [Nat.add_assoc, ← hlast]
      refine hsplit.at_ ?_ ?_
      · exact hd.of_eq rfl rfl rfl
      · exact enter_body rfl henc hsum hprobe hsplit.body
    | false =>
      have hlt : k + 1 < m.head.length := by
        by_contra h
        rw [List.drop_eq_nil_of_le (by omega)] at hrest
        cases hrest
      refine keeps_take (by simp [hwi]) (hsplit.lt (by omega)) ?_
      rw [Nat.add_assoc]
      refine hsplit.at_ ?_ ?_
      · exact hd.of_eq rfl rfl rfl
      · exact .gzipHeader hs hw hprobe henc hsum hlt hnext

theorem Split.sees (hsplit : Split wrap Valid decFlags ms junk pre m post)
    (hx : (tailedCoding ms junk).Shows ((Member.codes pre).length + (m.head.length + p)) w.input
      (mode = .finish)) (hp : p ≤ m.body.code.length) :
    m.body.Sees p (w.input.take mzClamp) := by
  have hlen := m.length_code
  have hnext := hx.next
  rw [hsplit.drop (by omega), Member.code, ← List.drop_drop, List.drop_left,
    List.drop_append_of_le_length hp, List.append_assoc] at hnext
  have htake := hnext.take (m.body.code.length - p)
  rw [List.take_left' (by simp)] at htake
  refine List.IsPrefix.trans ?_ htake
  rw [List.take_take, Nat.min_comm, ← List.take_take]
  exact List.take_prefix ..

theorem engineFlush_allows (mode : Flush) {phase : MzPhase} (henc : s.encoder = false)
    (hcalled : phase = .fresh ↔ s.mzCalled = false)
    (hfin : phase = .finishing → mode = .finish) : phase.Allows (engineFlush s mode) := by
  unfold engineFlush
  cases phase with
  | fresh =>
    have hc := hcalled.mp rfl
    simp only [MzPhase.Allows, henc, hc, true_and]
    split_ifs with h
    · simp
    · exact h
  | streaming => trivial
  | finishing =>
    have hc : ¬ s.mzCalled = false := fun h => by cases hcalled.mpr h
    simp [MzPhase.Allows, hc, hfin rfl, toMzFlush]

theorem afterEngine_eq (s : DeflateState E) (w : Window) (r : MzStep E.State) :
    ∃ ck n, afterEngine s w r =
      { s with mz := r.state, mzCalled := true, checksum := ck, uncompressed := n } := by
  unfold afterEngine
  dsimp only
  split_ifs
  · exact ⟨s.checksum, s.uncompressed, rfl⟩
  · exact ⟨_, _, rfl⟩

theorem Decodes.afterEngine (hd : Decodes wrap decFlags s) (w : Window) (r : MzStep E.State) :
    Decodes wrap decFlags (afterEngine s w r) := by
  obtain ⟨ck, n, h⟩ := afterEngine_eq s w r
  rw [h]
  exact hd.of_eq rfl rfl rfl

theorem Decodes.enterTrailer (hd : Decodes wrap decFlags s) :
    Decodes wrap decFlags (enterTrailer s) := by
  have h : Zukomp.enterTrailer s = { s with tailPos := 0, state := .trailer } := by
    simp [Zukomp.enterTrailer, hd.encoder]
  rw [h]
  exact hd.of_eq rfl rfl rfl

theorem Split.alone (hsplit : Split wrap Valid decFlags ms junk pre m post)
    (h : ¬ wrap.MayFollow decFlags) : pre = [] ∧ post = [] := by
  have hone := hsplit.stream.single h
  rw [hsplit.eq, List.length_append, List.length_cons] at hone
  exact ⟨List.eq_nil_of_length_eq_zero (by omega), List.eq_nil_of_length_eq_zero (by omega)⟩

theorem Split.codes_length (hsplit : Split wrap Valid decFlags ms junk pre m post) :
    (Member.codes ms).length =
      (Member.codes pre).length + (m.code.length + (Member.codes post).length) := by
  rw [hsplit.eq]
  simp

theorem Split.code_length (hsplit : Split wrap Valid decFlags ms junk pre m post) :
    (tailedCoding ms junk).code.length = (Member.codes pre).length +
      (m.code.length + (Member.codes post).length) + junk.length := by
  rw [← hsplit.codes_length]
  simp [tailedCoding, streamCoding]

theorem Split.text_length (hsplit : Split wrap Valid decFlags ms junk pre m post) :
    (tailedCoding ms junk).text.length =
      (Member.texts pre).length + (m.text.length + (Member.texts post).length) := by
  rw [hsplit.eq]
  simp [tailedCoding, streamCoding]

theorem Split.writes (hsplit : Split wrap Valid decFlags ms junk pre m post) {j : ℕ}
    {o : List UInt8} (hj : j ≤ m.text.length) (hw : m.body.Writes j o) :
    (tailedCoding ms junk).Writes ((Member.texts pre).length + j) o := by
  rw [Coding.Writes, tailedCoding, Coding.followed_text, hsplit.eq,
    streamCoding_text_drop pre m post hj]
  exact hw.trans (List.prefix_append ..)

/-- The engine can move nothing: there is no room for text it holds, or input is missing. -/
theorem body_stalled (hsplit : Split wrap Valid decFlags ms junk pre m post)
    (hd : Decodes wrap decFlags s)
    (hphase : Phase I s (mode == .finish) m post junk (m.head.length + p) q)
    (hp : p ≤ m.body.code.length) (hq : q ≤ m.body.ready p) (hend : ¬ m.body.Ended p q)
    (hx : (tailedCoding ms junk).Shows ((Member.codes pre).length + (m.head.length + p)) w.input
      (mode = .finish))
    (hserves : m.body.Serves p q (w.input.take mzClamp) (min w.room mzClamp) 0 []) :
    (deflateCourse I wrap decFlags ms junk).Answer fails
      ((Member.codes pre).length + (m.head.length + p)) ((Member.texts pre).length + q) w
      (mode == .finish) (stalled s w mode, s, w) := by
  have hclamp : 0 < mzClamp := by norm_num [mzClamp]
  have hlen := m.length_code
  have htext := hsplit.text_length
  have hready := m.body.ready_le hp
  have hbody : m.text.length = m.body.text.length := rfl
  obtain ⟨hview, hroom⟩ := hserves.starved rfl rfl
  have hviewNil : w.input.take mzClamp = [] ↔ w.input = [] := by
    simp [List.take_eq_nil_iff, hclamp.ne']
  -- under `ZU_FINISH` the body cannot be waiting for bytes
  have hfinish : w.input = [] → mode = .finish → p = m.body.code.length := by
    intro hnil hm
    have hall := hx.all hm
    rw [hnil] at hall
    have := congrArg List.length hall.symm
    rw [List.length_drop, hsplit.code_length, List.length_nil] at this
    omega
  have hmore (h : q < m.text.length) :
      (Member.texts pre).length + q + ([] : List UInt8).length < (tailedCoding ms junk).text.length := by
    simp only [List.length_nil]
    omega
  have hat := hsplit.at_ hd hphase
  unfold stalled
  by_cases hr : w.room = 0
  · rw [if_pos hr]
    refine .full (.refl w) .nil hat hr ?_
    by_cases hnil : w.input = []
    · by_cases hqt : q < m.text.length
      · exact .inl (hmore hqt)
      have hqe : q = m.body.text.length := by omega
      have hpl : p < m.body.code.length := lt_of_le_of_ne hp fun h => hend ⟨h, hqe⟩
      have hmode : mode ≠ .finish := fun hm => by have := hfinish hnil hm; omega
      by_cases hpost : Member.texts post = []
      · refine .inr ⟨hnil, by simpa using hmode, ?_⟩
        show TextReady ms _
        rw [Nat.add_zero, hsplit.textReady, TextReady, if_pos (by omega), Nat.add_sub_cancel_left]
        exact ⟨by omega, by omega, by omega, hpost⟩
      · have := List.length_pos_iff.mpr hpost
        refine .inl ?_
        show _ < (tailedCoding ms junk).text.length
        simp only [List.length_nil]
        omega
    · have := (hview (fun h => hnil (hviewNil.mp h))).2
      exact .inl (hmore (by omega))
  · rw [if_neg hr]
    obtain ⟨hnil, hqr⟩ := hroom (by omega)
    rw [hviewNil] at hnil
    have hmode : mode ≠ .finish := by
      intro hm
      have hpl := hfinish hnil hm
      exact hend ⟨hpl, by rw [hqr, hpl, m.body.ready_full]⟩
    have hpl : p < m.body.code.length := by
      refine lt_of_le_of_ne hp fun h => hend ⟨h, ?_⟩
      rw [hqr, h, m.body.ready_full]
    rw [if_pos hnil, if_pos hmode]
    refine .hungry (.refl w) .nil hat (by simpa using hmode) hnil fun hs => ⟨hr, ?_⟩
    change TextReady ms _ at hs
    change _ = (tailedCoding ms junk).text.length
    rw [Nat.add_zero, hsplit.textReady, TextReady, if_pos (by omega), Nat.add_sub_cancel_left] at hs
    rw [htext, hs.2.2.2, hqr, hs.2.2.1]
    simp

theorem engineFlush_finish (h : engineFlush s mode = .finish) :
    (mode == .finish) = true := by
  unfold engineFlush at h
  split_ifs at h with hf
  cases mode <;> simp_all [toMzFlush]

/-- A data error in mid-stream is the clamp's doing. -/
theorem starved_of_short (hsplit : Split wrap Valid decFlags ms junk pre m post) (hs : s.state = .body)
    (henc : s.encoder = false)
    (hx : (tailedCoding ms junk).Shows ((Member.codes pre).length + (m.head.length + p)) w.input
      (mode = .finish)) (hp : p ≤ m.body.code.length)
    (hdata : (engineCall s w mode).status = .dataError)
    (hshort : engineFlush s mode = .finish ∧
      (w.input.take mzClamp).length < m.body.code.length - p) : Starved mode (s, w) := by
  obtain ⟨hflush, hlt⟩ := hshort
  have hlen := m.length_code
  unfold engineFlush at hflush
  have hcalled : s.mzCalled = true := by
    by_contra hc
    rw [if_pos ⟨henc, by simpa using hc, by split_ifs at hflush; exact hflush⟩] at hflush
    cases hflush
  rw [if_neg (by simp [hcalled])] at hflush
  have hmode : mode = .finish := by
    cases mode <;> simp_all [toMzFlush]
  refine ⟨hs, hcalled, hmode, ?_, hdata⟩
  have hall := congrArg List.length (hx.all hmode)
  rw [List.length_drop, hsplit.code_length] at hall
  simp only [List.length_take] at hlt
  show mzClamp < w.input.length
  omega

theorem bodyStep_keeps (hsplit : Split wrap Valid decFlags ms junk pre m post)
    (hd : Decodes wrap decFlags s) {phase : MzPhase} (hs : s.state = .body)
    (hprobe : s.probeMagic = false) (hengine : I.At m.body s.mz phase p q)
    (hcalled : phase = .fresh ↔ s.mzCalled = false)
    (hfin : phase = .finishing → (mode == .finish) = true) (hend : ¬ m.body.Ended p q)
    (hsum : Summed s (m.text.take q))
    (hx : (tailedCoding ms junk).Shows ((Member.codes pre).length + (m.head.length + p)) w.input
      (mode = .finish)) (hfails : Starved mode (s, w) → fails) :
    Keeps I wrap decFlags ms junk fails ((Member.codes pre).length + (m.head.length + p))
      ((Member.texts pre).length + q) w (mode == .finish) (bodyStep s w mode) := by
  obtain ⟨hp, hq⟩ := I.bounds hengine
  have hqt : q ≤ m.text.length := hq.trans (m.body.ready_le hp)
  have hr := I.process (min w.room mzClamp) hsplit.body hengine hend (hsplit.sees hx hp)
    (engineFlush_allows mode hd.encoder hcalled (by simpa using hfin))
  have hmoved := engineCall_moved s w mode
  rw [bodyStep, if_neg (by simp [hd.encoder])]
  dsimp only
  change InflateStep E I.At m.body p q _ _ _ (engineCall s w mode) at hr
  set r := engineCall s w mode with hcall
  have hsum' : Summed (afterEngine s w r) (m.text.take q ++ r.out) :=
    hsum.afterEngine hd.encoder w r
  have hd' := hd.afterEngine w r
  -- the clamp hides input that was there under `ZU_FINISH`
  by_cases hdata : r.status = .dataError
  · rw [if_neg (by simp [hdata]), if_pos (by simp [hdata]), hdata]
    exact .failed (hfails (starved_of_short hsplit hs hd.encoder hx hp hdata (hr.short hdata)))
  have hserves := hr.serves hdata
  have hat := hr.at_ hdata
  have hended := hr.ended hdata
  have hwrites := hsplit.writes hqt hserves.writes
  have htake : m.text.take q ++ r.out = m.text.take (q + r.out.length) := by
    rw [List.take_add]
    congr 1
    exact hserves.writes.eq_take
  by_cases hstop : r.status = .streamEnd
  · obtain ⟨hpe, hqe⟩ := hended.mp hstop
    have hlen := m.length_code
    have hbody : m.text.length = m.body.text.length := rfl
    rw [if_pos hstop]
    by_cases hw : s.wrap = .none
    · rw [if_neg (by simp [hw])]
      obtain rfl : wrap = .none := hd.wrap_eq.symm.trans hw
      have hone : ¬ WrapKind.none.MayFollow decFlags := fun h => by cases h.1
      obtain ⟨rfl, rfl⟩ := hsplit.alone hone
      have htail : m.tail.length = 0 := hsplit.tail_length
      have hhead := congrArg List.length hsplit.head
      have hread : (Member.codes []).length + (m.head.length + p) + r.used =
          (Member.codes ms).length := by
        rw [hsplit.codes_length]
        simp only [Member.codes_nil, List.length_nil] at hhead ⊢
        omega
      refine .closed hmoved hwrites ?_ ?_
      · show _ = (tailedCoding ms junk).text.length
        rw [hsplit.text_length]
        simp
        omega
      · rw [hread]
        exact StreamEnds.ended hsplit.eq (List.eq_nil_of_length_eq_zero htail)
          (fun h => absurd h hone) fun h => absurd h hone
    · rw [if_pos (by simpa using hw)]
      refine keeps_move hmoved hwrites ?_ (by rw [hsplit.codes_length]; omega)
      rw [Nat.add_assoc, Nat.add_assoc, Nat.add_assoc, hpe, hqe]
      rw [htake, hqe, ← hbody, List.take_length] at hsum'
      refine hsplit.at_ hd'.enterTrailer ?_
      exact .trailer rfl (by simpa [enterTrailer] using hw) (by simpa [enterTrailer] using hprobe)
        (by simpa [enterTrailer] using hat) hsum' (Nat.zero_le _) rfl
  · rw [if_neg hstop]
    have hgo : ¬ (r.status ≠ .ok ∧ r.status ≠ .bufError) := by
      rcases hr.status with h | h | h | h <;> simp_all
    rw [if_neg hgo]
    rw [htake] at hsum'
    have hphase : Phase I (afterEngine s w r) (mode == .finish) m post junk
        (m.head.length + (p + r.used)) (q + r.out.length) :=
      .body (by simpa using hs) (by simpa using hprobe) (by simpa using hat)
        (by simp [MzPhase.after_ne_fresh])
        (fun h => engineFlush_finish (MzPhase.after_eq_finishing.mp h))
        (fun h => hstop (hended.mpr h)) hsum'
    split_ifs with hidle
    · have hsame : (w.take r.used).put r.out = w := by
        rw [hidle.1, hidle.2]
        simp [Window.take, Window.put]
      rw [hsame]
      rw [hidle.1, hidle.2] at hphase hserves
      exact body_stalled hsplit hd' hphase hp hq hend hx hserves
    · have hwithin := hserves.within
      have hlen := m.length_code
      refine keeps_move hmoved hwrites ?_ (by rw [hsplit.codes_length]; omega)
      rw [Nat.add_assoc, Nat.add_assoc, Nat.add_assoc]
      exact hsplit.at_ hd' hphase

end Turns

end Zukomp
