import Zukomp.Deflate.Body

/-! # Decoding from the trailer to the next member

A member ends where its trailer has been checked: the stream then ends, goes on with another
member, or holds the first byte of one that never begins.
-/

namespace Zukomp

open Library

variable {E : MzStream} {Valid : Progressive UInt8 → Prop}

section Turns

variable {I : Inflates E Valid} {wrap : WrapKind} {decFlags : UInt32} {ms pre post : List Member}
  {m : Member} {junk : List UInt8} {fails : Prop} {p q : ℕ} {s s' : DeflateState E} {w : Window}
  {last : Bool} {mode : Flush}

/-! ## The trailer -/

theorem Split.tail_drop (h : Split wrap Valid decFlags ms junk pre m post) {i : ℕ} {b : UInt8}
    {rest : List UInt8} {last : Prop}
    (hx : (tailedCoding ms junk).Shows ((Member.codes pre).length + (m.head.length +
      m.body.code.length + i)) (b :: rest) last)
    (hi : i < m.tail.length) : m.tail.drop i = b :: (m.tail.drop i).tail := by
  have hlen := m.length_code
  have hnext := hx.next
  rw [h.drop (by omega), Member.code, Nat.add_assoc, ← List.drop_drop, List.drop_left,
    ← List.drop_drop, List.drop_left, List.drop_eq_getElem_cons hi] at hnext
  rw [List.drop_eq_getElem_cons hi, (List.cons_prefix_cons.mp hnext).1]
  rfl

/-- The trailer is checked against the text. -/
theorem checkTail_eq (hw : s.wrap ≠ .none) {text tail : List UInt8} (hsum : Summed s text)
    (hlen : tail.length = tailLength s.wrap) (hread : s.tail.take (tailLength s.wrap) = tail) :
    checkTail s = if tail = s.wrap.tailOf text then .ok else .errChecksum := by
  obtain ⟨hck, hcount⟩ := hsum hw
  have htail := List.take_append_drop (tailLength s.wrap) s.tail
  rw [hread] at htail
  unfold checkTail
  rw [hck, hcount, ← htail]
  cases hk : s.wrap with
  | none => exact absurd hk hw
  | zlib =>
    rw [hk] at hlen
    simp only [if_true, WrapKind.tailOf, ne_eq, readBE_eq_iff hlen, ite_not]
    rfl
  | gzip =>
    rw [hk] at hlen
    obtain ⟨sum, size, rfl, hsize, hisize⟩ : ∃ sum size, tail = sum ++ size ∧ sum.length = 4 ∧
        size.length = 4 := by
      refine ⟨tail.take 4, tail.drop 4, (List.take_append_drop 4 tail).symm, ?_, ?_⟩ <;>
        simp [hlen, tailLength]
    have hdrop (rest : List UInt8) : (sum ++ size ++ rest).drop 4 = size ++ rest := by
      rw [List.append_assoc, ← hsize, List.drop_left]
    have heq : sum ++ size = WrapKind.gzip.tailOf text ↔
        sum = le32 (WrapKind.gzip.checksumOf text) ∧ size = le32 (UInt32.ofNat text.length) := by
      refine ⟨fun h => List.append_inj h (by simp [hsize]), ?_⟩
      rintro ⟨rfl, rfl⟩
      rfl
    have hword : (UInt64.ofNat text.length).toUInt32 = UInt32.ofNat text.length := by simp
    rw [if_neg (by simp), hdrop, List.append_assoc]
    simp only [ne_eq, readLE_eq_iff hsize, readLE_eq_iff hisize, heq, hword]
    by_cases h1 : sum = le32 (WrapKind.gzip.checksumOf text)
    · by_cases h2 : size = le32 (UInt32.ofNat text.length) <;> simp [h1, h2]
    · simp [h1]

theorem trailerStep_keeps (hsplit : Split wrap Valid decFlags ms junk pre m post)
    (hd : Decodes wrap decFlags s) {phase : MzPhase} (hs : s.state = .trailer)
    (hw : s.wrap ≠ .none) (hprobe : s.probeMagic = false) (hengine : I.At m.body s.mz phase p q)
    (hsum : Summed s m.text) (hpos : s.tailPos ≤ m.tail.length)
    (hread : s.tail.take s.tailPos = m.tail.take s.tailPos)
    (hx : (tailedCoding ms junk).Shows ((Member.codes pre).length + (m.head.length +
      m.body.code.length + s.tailPos)) w.input (mode = .finish)) :
    Keeps I wrap decFlags ms junk fails ((Member.codes pre).length + (m.head.length +
      m.body.code.length + s.tailPos)) ((Member.texts pre).length + m.text.length) w
      (mode == .finish) (trailerStep s w mode) := by
  have hcode := m.length_code
  have htail : m.tail.length = s.tailLen := hsplit.tail_length.trans hd.tailLen.symm
  have hroom : s.tailLen ≤ s.tail.length := by
    rw [hd.tailLen, hd.tail]
    cases wrap <;> simp [tailLength]
  unfold trailerStep
  rw [if_neg (by simp [hd.encoder])]
  by_cases hlt : s.tailPos < s.tailLen
  · rw [if_pos hlt]
    cases hwi : w.input with
    | nil =>
      exact keeps_missing hx hwi (hsplit.at_ hd (.trailer hs hw hprobe hengine hsum hpos hread))
        (hsplit.lt (by omega)) (hsplit.not_textReady (.inr (by omega)))
    | cons b rest =>
      rw [hwi] at hx
      have hdrop := hsplit.tail_drop hx (by omega)
      refine keeps_take (by simp [hwi]) (hsplit.lt (by omega)) ?_
      rw [Nat.add_assoc, Nat.add_assoc]
      refine hsplit.at_ ?_ ?_
      · exact hd.of_eq rfl (by simp) rfl
      · exact .trailer hs hw hprobe hengine hsum (by simp only; omega)
          (take_set_of_drop (by omega) hread hdrop)
  · rw [if_neg hlt]
    have hall : s.tailPos = s.tailLen := by omega
    have hcheck : checkTail s = if m.tail = s.wrap.tailOf m.text then .ok else .errChecksum :=
      checkTail_eq hw hsum (by rw [hd.wrap_eq]; exact hsplit.tail_length)
        (by rw [hd.wrap_eq, ← hd.tailLen, ← hall, hread, hall, ← htail, List.take_length])
    have hend : m.head.length + m.body.code.length + s.tailPos = m.code.length := by omega
    by_cases hright : m.tail = s.wrap.tailOf m.text
    · rw [if_pos hright] at hcheck
      rw [if_neg (by simp [hcheck]), hend]
      have hphase : Phase I { s with state := .memberEnd } (mode == .finish) m post junk
          (m.code.length + if s.probeMagic then 1 else 0) m.text.length :=
        .memberEnd rfl hw hengine hright (by simp [hprobe]) (by simp [hprobe])
      have hd' : Decodes wrap decFlags { s with state := .memberEnd } := hd.of_eq rfl rfl rfl
      rw [show (if s.probeMagic then 1 else 0) = 0 by simp [hprobe]] at hphase
      exact keeps_stay (hsplit.at_ hd' hphase)
    · rw [if_neg hright] at hcheck
      rw [if_pos (by simp [hcheck]), hcheck, hend]
      have hlast : post = [] := by
        by_contra hne
        exact hright (hd.wrap_eq ▸ hsplit.stream.sound hsplit.eq hne)
      subst hlast
      refine .closed (.refl w) .nil ?_ ?_
      · show _ = (tailedCoding ms junk).text.length
        simp [hsplit.text_length]
      · have hread : (Member.codes pre).length + m.code.length = (Member.codes ms).length := by
          simp [hsplit.codes_length]
        rw [Nat.add_zero, hread]
        exact .checksum hsplit.eq (hd.wrap_eq ▸ hright)

/-! ## The end of a member -/

theorem Split.next (hsplit : Split wrap Valid decFlags ms junk pre m post) {n : Member}
    {post' : List Member} (hpost : post = n :: post') :
    wrap.MayFollow decFlags ∧ Split wrap Valid decFlags ms junk (pre ++ [m]) n post' := by
  refine ⟨?_, hsplit.stream, by rw [hsplit.eq, hpost]; simp⟩
  by_contra h
  have := (hsplit.alone h).2
  rw [hpost] at this
  cases this

theorem Split.next_head (hsplit : Split .gzip Valid decFlags ms junk pre m post) :
    ∃ rest, m.head = 0x1F :: 0x8B :: rest ∧ 8 ≤ rest.length := hsplit.head.gzip

theorem Split.drop_after (hsplit : Split wrap Valid decFlags ms junk pre m post) (k : ℕ) :
    (tailedCoding ms junk).code.drop ((Member.codes pre).length + (m.code.length + k)) =
      (Member.codes post ++ junk).drop k := by
  rw [← Nat.add_assoc, ← List.drop_drop, hsplit.drop le_rfl]
  simp

/-- Where a member ends no text waits for the rest of a body. -/
theorem Split.not_textReady_after (hsplit : Split .gzip Valid decFlags ms junk pre m post) {k : ℕ}
    (hk : k ≤ 1) : ¬ TextReady ms ((Member.codes pre).length + (m.code.length + k)) := by
  rw [hsplit.textReady, TextReady, if_neg (by omega), Nat.add_sub_cancel_left]
  cases hpost : post with
  | nil => exact id
  | cons n post' =>
    obtain ⟨-, hnext⟩ := hsplit.next hpost
    obtain ⟨rest, hhead, -⟩ := hnext.next_head
    have hlen := n.length_code
    rw [hhead] at hlen
    simp only [List.length_cons] at hlen
    rw [TextReady, if_pos (by omega), hhead]
    simp only [List.length_cons]
    omega

theorem nextMember_eq (hd : Decodes .gzip decFlags s) {p' q' : ℕ} {c : Progressive UInt8}
    {phase : MzPhase} (hengine : I.At c s.mz phase p' q') (w : Window) (held : Bool) :
    ∃ s', nextMember s w held = .inl (s', w) ∧ Decodes .gzip decFlags s' ∧ s'.state = .header ∧
      s'.wrap = .gzip ∧ s'.probeMagic = false ∧ FreshEngine I s' ∧ Summed s' [] ∧
      s'.gz = if held then (gzipHeaderInit.feed 0x1F).2.2 else gzipHeaderInit := by
  obtain ⟨hreset, hfresh⟩ := I.reset hengine
  unfold nextMember
  rcases deflateReset_decoder hd.encoder with ⟨mz, hmz, hr⟩ | ⟨mz, hmz, hr⟩
  · rw [hmz] at hfresh
    simp only [hr, hd.wrap_eq, if_pos]
    have hsum (s : DeflateState E) (hck : s.checksum = checksumInit .gzip) (hw : s.wrap = .gzip)
        (hu : s.uncompressed = 0) : Summed s [] := fun _ =>
      ⟨by rw [hck, hw]; exact checksumInit_eq .gzip, hu⟩
    cases held with
    | false =>
      exact ⟨_, rfl, hd.of_eq (by simp [hd.wrap_eq]) rfl rfl, rfl, rfl, rfl, ⟨rfl, hfresh⟩,
        hsum _ rfl rfl rfl, rfl⟩
    | true =>
      exact ⟨_, rfl, hd.of_eq (by simp [hd.wrap_eq]) rfl rfl, rfl, rfl, rfl, ⟨rfl, hfresh⟩,
        hsum _ rfl rfl rfl, rfl⟩
  · rw [hmz] at hreset
    cases hreset

/-- The next member is begun at its first byte, or at its second with the first one held. -/
theorem nextMember_keeps (hsplit : Split .gzip Valid decFlags ms junk pre m post)
    (hd : Decodes .gzip decFlags s) {p' q' : ℕ} {c : Progressive UInt8} {phase : MzPhase}
    (hengine : I.At c s.mz phase p' q') (held : Bool) {k : ℕ} (hk : k = if held then 1 else 0) :
    Keeps I .gzip decFlags ms junk fails ((Member.codes pre).length + k)
      ((Member.texts pre).length + 0) w last (nextMember s w held) := by
  obtain ⟨s', hnext, hd', hs', hw', hprobe', hfresh, hsum, hgz⟩ := nextMember_eq hd hengine w held
  obtain ⟨tail, hhead, htail⟩ := hsplit.next_head
  have hawaits : gzipHeaderInit.Awaits m.head := by
    obtain ⟨g, hg⟩ := hsplit.head
    rw [hg]
    exact g.awaits_bytes
  have hlen : 2 < m.head.length := by
    rw [hhead]
    simp only [List.length_cons]
    omega
  rw [hnext]
  refine keeps_stay (hsplit.at_ hd' ?_)
  cases held with
  | false =>
    obtain rfl : k = 0 := hk
    exact .gzipHeader hs' hw' hprobe' hfresh hsum (by omega) (by rw [hgz]; exact hawaits)
  | true =>
    obtain rfl : k = 1 := hk
    rw [hhead] at hawaits
    obtain ⟨gz, hfeed, hrest⟩ := hawaits.feed
    refine .gzipHeader hs' hw' hprobe' hfresh hsum (by omega) ?_
    rw [hgz, hhead]
    simpa [hfeed] using hrest

/-- So is the header that the bytes after the last member begin. -/
theorem nextMember_commits (hsplit : Split .gzip Valid decFlags ms junk pre m [])
    (hd : Decodes .gzip decFlags s) (hc : concatenates s = true) (hright : m.tail = s.wrap.tailOf m.text)
    (hbegins : gzipMagic <+: junk) {p' q' : ℕ} {c : Progressive UInt8} {phase : MzPhase}
    (hengine : I.At c s.mz phase p' q') (held : Bool) {k : ℕ} (hk : k = if held then 1 else 0) :
    Keeps I .gzip decFlags ms junk fails ((Member.codes pre).length + (m.code.length + k))
      ((Member.texts pre).length + m.text.length) w last (nextMember s w held) := by
  obtain ⟨s', hnext, hd', hs', hw', hprobe', -, -, hgz⟩ := nextMember_eq hd hengine w held
  obtain ⟨rest, hjunk⟩ := hbegins
  have hc' : concatenates s' = true := by
    rw [concatenates, hw', hd'.flags, hd'.encoder]
    rwa [concatenates, hd.wrap_eq, hd.flags, hd.encoder] at hc
  have hlen := congrArg List.length hjunk
  simp only [gzipMagic, List.length_append, List.length_cons, List.length_nil] at hlen
  rw [hnext]
  refine keeps_stay (hsplit.at_ hd' (.committed hs' hw' hprobe' hc' rfl (by rw [hw', hright, hd.wrap_eq])
    ⟨rest, hjunk⟩ ?_ ?_))
  · rw [hk]
    split_ifs <;> omega
  · rw [hgz, hk, ← hjunk]
    cases held <;> rfl

theorem Split.after_cons (hsplit : Split wrap Valid decFlags ms junk pre m post) {k : ℕ}
    {b : UInt8} {rest : List UInt8} {last : Prop}
    (hx : (tailedCoding ms junk).Shows ((Member.codes pre).length + (m.code.length + k))
      (b :: rest) last) : b :: rest <+: (Member.codes post ++ junk).drop k := by
  rw [← hsplit.drop_after]
  exact hx.next

/-- A member follows: hold its first magic byte while it comes alone, and start it when the
second is there. -/
theorem memberEnd_begins (hsplit : Split .gzip Valid decFlags ms junk pre m post)
    (hd : Decodes .gzip decFlags s) (hc : concatenates s = true)
    (hbegins : gzipMagic <+: Member.codes post ++ junk)
    {k : ℕ} (hk : k = if s.probeMagic then 1 else 0)
    (hnext : Keeps I .gzip decFlags ms junk fails ((Member.codes pre).length + (m.code.length + k))
      ((Member.texts pre).length + m.text.length) w (mode == .finish) (nextMember s w s.probeMagic))
    (hat : DeflateAt I .gzip decFlags ms junk s (mode == .finish) ((Member.codes pre).length +
      (m.code.length + k)) ((Member.texts pre).length + m.text.length))
    (hheld : DeflateAt I .gzip decFlags ms junk { s with probeMagic := true } (mode == .finish)
      ((Member.codes pre).length + (m.code.length + 1)) ((Member.texts pre).length + m.text.length))
    (hx : (tailedCoding ms junk).Shows ((Member.codes pre).length + (m.code.length + k)) w.input
      (mode = .finish)) :
    Keeps I .gzip decFlags ms junk fails ((Member.codes pre).length + (m.code.length + k))
      ((Member.texts pre).length + m.text.length) w (mode == .finish) (memberEndStep s w mode) := by
  obtain ⟨tail, hafter⟩ := hbegins
  have hle : k ≤ 1 := by
    rw [hk]
    split_ifs <;> simp
  -- what follows is longer than what has been shown of it
  have hmode (hshort : w.input.length + k ≤ 1) : mode ≠ .finish := by
    intro hm
    have hall := congrArg List.length (hx.all hm)
    rw [hsplit.drop_after, ← hafter] at hall
    simp only [gzipMagic, List.length_drop, List.length_append, List.length_cons,
      List.length_nil] at hall
    omega
  unfold memberEndStep
  cases hwi : w.input with
  | nil =>
    have hrun := hmode (by simp [hwi, hle])
    dsimp only
    rw [if_pos ⟨hd.encoder, hc, hrun⟩]
    exact .hungry (.refl w) .nil hat (by simpa using hrun) hwi
      fun h => absurd h (hsplit.not_textReady_after hle)
  | cons b rest =>
    rw [hwi] at hx
    have hshown := hsplit.after_cons hx
    rw [← hafter] at hshown
    dsimp only
    rw [if_neg (by simp [hc])]
    cases hprobe : s.probeMagic with
    | false =>
      obtain rfl : k = 0 := by simpa [hprobe] using hk
      obtain ⟨rfl, hrest⟩ := List.cons_prefix_cons.mp hshown
      rw [if_pos rfl, if_neg (by simp)]
      cases rest with
      | nil =>
        have hrun := hmode (by simp [hwi])
        dsimp only
        rw [if_neg hrun]
        exact .hungry (.take (by simp [hwi])) .nil hheld (by simpa using hrun) (by simp [hwi])
          fun h => absurd h (hsplit.not_textReady_after le_rfl)
      | cons b' rest =>
        obtain ⟨rfl, -⟩ := List.cons_prefix_cons.mp hrest
        dsimp only
        rw [if_neg (by simp)]
        rwa [hprobe] at hnext
    | true =>
      obtain rfl : k = 1 := by simpa [hprobe] using hk
      obtain ⟨rfl, -⟩ := List.cons_prefix_cons.mp hshown
      rw [if_neg (by simp), if_neg (by simp)]
      rwa [hprobe] at hnext

theorem keeps_end {st : Status} {w' : Window} {u : ℕ} (hm : w.Moved u [] w')
    (htext : q = (tailedCoding ms junk).text.length)
    (hends : StreamEnds wrap decFlags ms junk (holds ms junk p) last (p + u) w'.input.isEmpty st) :
    Keeps I wrap decFlags ms junk fails p q w last (.inr (st, s', w')) :=
  .closed hm .nil htext hends

/-- No member follows: the end is told with all or with the first two of the bytes after it in
view, or as soon as the first is another; a first magic byte is held while it comes alone. -/
theorem memberEnd_last (hsplit : Split wrap Valid decFlags ms junk pre m [])
    (hd : Decodes wrap decFlags s) (hright : m.tail = wrap.tailOf m.text)
    (hheld : s.probeMagic = true → [0x1F] <+: junk)
    (hconcat : s.probeMagic = true → concatenates s = true)
    (hno : wrap.MayFollow decFlags → ¬ gzipMagic <+: junk) {k : ℕ}
    (hk : k = if s.probeMagic then 1 else 0)
    (hat : DeflateAt I wrap decFlags ms junk s (mode == .finish) ((Member.codes pre).length +
      (m.code.length + k)) ((Member.texts pre).length + m.text.length))
    (hhold : concatenates s = true → [0x1F] <+: junk →
      DeflateAt I wrap decFlags ms junk { s with probeMagic := true } (mode == .finish)
        ((Member.codes pre).length + (m.code.length + 1)) ((Member.texts pre).length + m.text.length))
    (hx : (tailedCoding ms junk).Shows ((Member.codes pre).length + (m.code.length + k)) w.input
      (mode = .finish)) :
    Keeps I wrap decFlags ms junk fails ((Member.codes pre).length + (m.code.length + k))
      ((Member.texts pre).length + m.text.length) w (mode == .finish) (memberEndStep s w mode) := by
  have htext : (Member.texts pre).length + m.text.length = (tailedCoding ms junk).text.length := by
    simp [hsplit.text_length]
  have hend (k : ℕ) : (Member.codes pre).length + (m.code.length + k) =
      (Member.codes ms).length + k := by
    rw [hsplit.codes_length]
    simp [Nat.add_assoc]
  have hlast : (Member.codes pre).length + m.code.length = (Member.codes ms).length := hend 0
  have hdrop (k : ℕ) := hsplit.drop_after k
  simp only [Member.codes_nil, List.nil_append] at hdrop
  have hfollow : concatenates s = true ↔ wrap.MayFollow decFlags := by
    simp [concatenates, WrapKind.MayFollow, hd.wrap_eq, hd.flags, hd.encoder]
  have hall (hm : mode = .finish) : w.input = junk.drop k := by
    rw [← hdrop]
    exact hx.all hm
  by_cases hc : concatenates s = true
  · have hmay := hfollow.mp hc
    obtain rfl : wrap = .gzip := hmay.1
    unfold memberEndStep
    cases hwi : w.input with
    | nil =>
      dsimp only
      by_cases hm : mode = .finish
      · rw [if_neg (by simp [hm])]
        have hnil := hall hm
        rw [hwi] at hnil
        cases hprobe : s.probeMagic with
        | false =>
          obtain rfl : k = 0 := by simpa [hprobe] using hk
          have hjunk : junk = [] := hnil.symm
          simp only [finishMember, hprobe, Bool.false_eq_true, if_false]
          refine keeps_end (.refl w) htext ?_
          simp only [Nat.add_zero, hlast, hwi]
          exact .ended hsplit.eq hright (fun _ => ⟨by simp [hjunk], hno hmay⟩) fun _ h => by
            rw [hjunk] at h
            cases h
        | true =>
          obtain rfl : k = 1 := by simpa [hprobe] using hk
          have hjunk : junk = [0x1F] := by
            obtain ⟨rest, rfl⟩ := hheld hprobe
            rw [show rest = [] from hnil.symm]
            rfl
          simp only [finishMember, hprobe, if_true]
          refine keeps_end (.refl w) htext ?_
          have hholds : holds ms junk ((Member.codes ms).length + 1) = true := by
            simp [holds, hno hmay]
          rw [Nat.add_zero, hend, hwi, hholds, hd.flags, hm]
          exact .held hsplit.eq hright hmay hjunk
      · rw [if_pos ⟨hd.encoder, hc, hm⟩]
        exact .hungry (.refl w) .nil hat (by simpa using hm) hwi
          fun h => absurd h (hsplit.not_textReady_after (by rw [hk]; split_ifs <;> simp))
    | cons b rest =>
      have hshown := hx.next
      rw [hwi, hdrop] at hshown
      dsimp only
      rw [if_neg (by simp [hc])]
      cases hprobe : s.probeMagic with
      | false =>
        obtain rfl : k = 0 := by simpa [hprobe] using hk
        rw [List.drop_zero] at hshown
        have hne : junk.isEmpty = false := by
          obtain ⟨t, rfl⟩ := hshown
          rfl
        rw [if_pos rfl]
        by_cases hb : b = 0x1F
        · subst hb
          rw [if_neg (by simp)]
          cases rest with
          | nil =>
            dsimp only
            by_cases hm : mode = .finish
            · rw [if_pos hm]
              refine keeps_end (.refl w) htext ?_
              simp only [Nat.add_zero, hlast, hwi]
              rw [holds_of_le le_rfl, hm]
              exact .ended hsplit.eq hright (fun _ => ⟨hne.symm, hno hmay⟩) fun _ _ => ⟨rfl, rfl⟩
            · rw [if_neg hm]
              exact .hungry (.take (by simp [hwi])) .nil (hhold hc hshown) (by simpa using hm)
                (by simp [hwi]) fun h => absurd h (hsplit.not_textReady_after le_rfl)
          | cons b' rest =>
            dsimp only
            have hother : b' ≠ 0x8B := by
              rintro rfl
              exact hno hmay (.trans ⟨rest, rfl⟩ hshown)
            rw [if_pos hother]
            refine keeps_end (.refl w) htext ?_
            simp only [Nat.add_zero, hlast, hwi]
            refine .ended hsplit.eq hright (fun _ => ⟨hne.symm, hno hmay⟩) fun _ h => ?_
            have := hshown.length_le
            rw [h] at this
            simp at this
        · rw [if_pos hb]
          refine keeps_end (.refl w) htext ?_
          simp only [Nat.add_zero, hlast, hwi]
          refine .ended hsplit.eq hright (fun _ => ⟨hne.symm, hno hmay⟩) fun _ h => ?_
          rw [h] at hshown
          exact absurd (List.cons_prefix_cons.mp hshown).1 hb
      | true =>
        obtain rfl : k = 1 := by simpa [hprobe] using hk
        obtain ⟨tail, hjunk⟩ := hheld hprobe
        rw [← hjunk] at hshown
        have hother : b ≠ 0x8B := by
          rintro rfl
          obtain ⟨t, ht⟩ := hshown
          refine hno hmay ⟨rest ++ t, ?_⟩
          rw [← hjunk]
          simpa [gzipMagic] using ht
        obtain ⟨t, ht⟩ := hshown
        rw [if_neg (by simp), if_pos hother]
        refine keeps_end (.refl w) htext ?_
        have hholds : holds ms junk ((Member.codes ms).length + 1) = true := by
          simp [holds, hno hmay]
        rw [Nat.add_zero, hend, hwi, hholds]
        have hjunk' : junk = 0x1F :: b :: (rest ++ t) := by
          rw [← hjunk]
          simpa using ht.symm
        exact .dropped hsplit.eq hright hmay hjunk' hother
  · have hprobe : s.probeMagic = false := by
      by_contra h
      exact hc (hconcat (by simpa using h))
    obtain rfl : k = 0 := by simpa [hprobe] using hk
    have hstep : memberEndStep s w mode = .inr (.streamEnd, { s with state := .done }, w) := by
      unfold memberEndStep
      cases hwi : w.input with
      | nil => simp [hc, finishMember, hprobe]
      | cons b rest => simp [hc, finishMember, hprobe]
    rw [hstep]
    refine keeps_end (.refl w) htext ?_
    simp only [Nat.add_zero, hlast]
    exact .ended hsplit.eq hright (fun h => absurd (hfollow.mpr h) hc)
      fun h => absurd (hfollow.mpr h) hc

theorem memberEndStep_keeps (hsplit : Split wrap Valid decFlags ms junk pre m post)
    (hd : Decodes wrap decFlags s) {phase : MzPhase} (hs : s.state = .memberEnd)
    (hw : s.wrap ≠ .none) (hengine : I.At m.body s.mz phase p q)
    (hright : m.tail = s.wrap.tailOf m.text)
    (hheld : s.probeMagic = true → [0x1F] <+: Member.codes post ++ junk)
    (hconcat : s.probeMagic = true → concatenates s = true)
    (hx : (tailedCoding ms junk).Shows ((Member.codes pre).length + (m.code.length +
      if s.probeMagic then 1 else 0)) w.input (mode = .finish)) :
    Keeps I wrap decFlags ms junk fails ((Member.codes pre).length + (m.code.length +
      if s.probeMagic then 1 else 0)) ((Member.texts pre).length + m.text.length) w
      (mode == .finish) (memberEndStep s w mode) := by
  have hat : DeflateAt I wrap decFlags ms junk s (mode == .finish) _ _ :=
    hsplit.at_ hd (.memberEnd hs hw hengine hright hheld hconcat)
  have hhold (hc : concatenates s = true) (hfirst : [0x1F] <+: Member.codes post ++ junk) :
      DeflateAt I wrap decFlags ms junk { s with probeMagic := true } (mode == .finish)
        ((Member.codes pre).length + (m.code.length + 1))
        ((Member.texts pre).length + m.text.length) := by
    have hd' : Decodes wrap decFlags { s with probeMagic := true } := hd.of_eq rfl rfl rfl
    exact hsplit.at_ hd' (.memberEnd hs hw hengine hright (fun _ => hfirst) fun _ => hc)
  have hright' : m.tail = wrap.tailOf m.text := hd.wrap_eq ▸ hright
  have hfollow : wrap.MayFollow decFlags → concatenates s = true := by
    rintro ⟨rfl, hflag⟩
    simp [concatenates, hd.wrap_eq, hd.flags, hflag, hd.encoder]
  cases hpost : post with
  | nil =>
    subst hpost
    by_cases hbegins : wrap.MayFollow decFlags ∧ gzipMagic <+: junk
    · obtain ⟨hmay, hbegins⟩ := hbegins
      obtain rfl : wrap = .gzip := hmay.1
      have hc := hfollow hmay
      have hfirst : [0x1F] <+: junk := .trans ⟨[0x8B], rfl⟩ hbegins
      exact memberEnd_begins hsplit hd hc hbegins rfl
        (nextMember_commits hsplit hd hc hright hbegins hengine _ rfl) hat (hhold hc hfirst) hx
    · exact memberEnd_last hsplit hd hright' hheld hconcat (fun hmay hb => hbegins ⟨hmay, hb⟩) rfl
        hat hhold hx
  | cons n post' =>
    obtain ⟨hmay, hnext⟩ := hsplit.next hpost
    obtain rfl : wrap = .gzip := hmay.1
    obtain ⟨rest, hhead, -⟩ := hnext.next_head
    have hbegins : gzipMagic <+: Member.codes post ++ junk := by
      rw [hpost, Member.codes_cons, Member.code, hhead]
      exact ⟨_, rfl⟩
    have hc := hfollow hmay
    have hcode (k : ℕ) : (Member.codes (pre ++ [m])).length + k =
        (Member.codes pre).length + (m.code.length + k) := by simp [Nat.add_assoc]
    have htext : (Member.texts (pre ++ [m])).length + 0 =
        (Member.texts pre).length + m.text.length := by simp
    have hkeeps : Keeps I .gzip decFlags ms junk fails _ _ w (mode == .finish)
        (nextMember s w s.probeMagic) := nextMember_keeps hnext hd hengine s.probeMagic rfl
    rw [hcode, htext] at hkeeps
    exact memberEnd_begins hsplit hd hc hbegins rfl hkeeps hat
      (hhold hc (.trans ⟨[0x8B], rfl⟩ hbegins)) hx

/-! ## The header of a member that never begins -/

/-- The header is read to its error, or to the end of the bytes. -/
theorem committed_keeps (hsplit : Split wrap Valid decFlags ms junk pre m [])
    (hd : Decodes wrap decFlags s) {k : ℕ} (hs : s.state = .header) (hw : s.wrap = .gzip)
    (hprobe : s.probeMagic = false) (hc : concatenates s = true)
    (hright : m.tail = s.wrap.tailOf m.text) (hbegins : gzipMagic <+: junk)
    (hpos : k ≤ junk.length)
    (herror : s.gz.headerError (junk.drop k) = gzipHeaderInit.headerError junk)
    (hx : (tailedCoding ms junk).Shows ((Member.codes pre).length + (m.code.length + k)) w.input
      (mode = .finish)) :
    Keeps I wrap decFlags ms junk fails ((Member.codes pre).length + (m.code.length + k))
      ((Member.texts pre).length + m.text.length) w (mode == .finish) (headerStep s w mode) := by
  obtain rfl : wrap = .gzip := hd.wrap_eq.symm.trans hw
  have hmay : WrapKind.gzip.MayFollow decFlags := by
    simpa [concatenates, WrapKind.MayFollow, hw, hd.flags, hd.encoder] using hc
  have htext : (Member.texts pre).length + m.text.length = (tailedCoding ms junk).text.length := by
    simp [hsplit.text_length]
  have hend : (Member.codes pre).length + (m.code.length + k) = (Member.codes ms).length + k := by
    rw [hsplit.codes_length]
    simp [Nat.add_assoc]
  have hsome := hsplit.stream.tail hmay hbegins
  have hcommits {read : ℕ} {empty : Bool} {st : Status}
      (hread : (Member.codes ms).length ≤ read)
      (herr : gzipHeaderInit.headerError junk = some st) (waited last : Bool) :
      StreamEnds .gzip decFlags ms junk waited last read empty st :=
    .committed hsplit.eq (hw ▸ hright) hmay hbegins hread herr
  unfold headerStep
  rw [if_neg (by simp [hd.encoder]), if_pos hw]
  cases hwi : w.input with
  | nil =>
    dsimp only
    by_cases hm : mode = .finish
    · have hnil := hx.all hm
      rw [hwi, hsplit.drop_after, Member.codes_nil, List.nil_append] at hnil
      rw [← hnil] at herror
      rw [missing, if_pos hm]
      exact keeps_end (.refl w) htext (hcommits (by omega) herror.symm _ _)
    · rw [missing, if_neg hm]
      have hat : DeflateAt I .gzip decFlags ms junk s (mode == .finish) _ _ :=
        hsplit.at_ hd (.committed hs hw hprobe hc rfl hright hbegins hpos herror)
      refine .hungry (.refl w) .nil hat (by simpa using hm) hwi fun h => absurd (textReady_lt h) ?_
      rw [Nat.add_zero, hend]
      omega
  | cons b rest =>
    have hshown := hx.next
    rw [hwi, hsplit.drop_after, Member.codes_nil, List.nil_append] at hshown
    have hlt : k < junk.length := by
      have := hshown.length_le
      simp only [List.length_cons, List.length_drop] at this
      omega
    rw [List.drop_eq_getElem_cons hlt] at hshown
    obtain rfl := (List.cons_prefix_cons.mp hshown).1
    rw [List.drop_eq_getElem_cons hlt] at herror
    rw [GzipHeader.headerError] at herror
    have htake : w.Moved 1 [] (w.take 1) := .take (by simp [hwi])
    have hfeed := s.gz.feed_status junk[k]
    rcases hr : s.gz.feed junk[k] with ⟨st, done, gz⟩
    rw [hr] at herror hfeed
    simp only [hr]
    rcases hfeed with rfl | herr
    · cases done with
      | true => rw [← herror] at hsome; cases hsome
      | false =>
        refine ⟨1, [], htake, .nil, ?_, ?_⟩
        · rw [Nat.add_assoc, Nat.add_assoc]
          have hd' : Decodes .gzip decFlags { s with gz := gz } := hd.of_eq rfl rfl rfl
          exact hsplit.at_ hd' (.committed hs hw hprobe hc rfl hright hbegins hlt herror)
        · show holds ms junk _ = holds ms junk _
          rw [holds_of_begins hbegins, holds_of_begins hbegins]
    · cases st with
      | ok | needInput | needOutput | streamEnd => cases herr
      | _ => exact keeps_end htake htext (hcommits (by omega) herror.symm _ _)

end Turns

end Zukomp
