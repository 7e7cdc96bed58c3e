import Zukomp.Core.Closing

/-! # Offering everything

A caller that stops at the first stream end never learns of the buffers it has left. One that
offers them all is told of them by the finished handle, so that what it hears in the end does
not depend on where its buffers end.
-/

namespace Zukomp

open Library

/-- How a stream ended for a caller that offers all of its buffers: the last status, what it
was given, and the bytes that were never read. -/
structure Offered where
  status : Status
  written : List UInt8
  left : List UInt8

variable {v : CodecVtable}

def offerTurn (ws : Windows) (f : Feed v) : Feed v ⊕ Offered :=
  let r := decoderProcess f.dec (.ofParts f.unread f.room) f.mode
  match feedTurn ws f, f.later with
  | .inl f', _ => .inl f'
  | .inr ⟨.streamEnd, written⟩, chunk :: later =>
    .inl ⟨r.2.1, r.2.2.unread ++ chunk, later, r.2.2.availOut, f.calls + 1, written⟩
  | .inr ⟨st, written⟩, later => .inr ⟨st, written, r.2.2.unread ++ later.flatten⟩

theorem offer_reaches {ws : Windows} {f f' : Feed v} (h : Reaches (feedTurn ws) f f') :
    Reaches (offerTurn ws) f f' := by
  refine Relation.ReflTransGen.mono (fun g g' hg => ?_) _ _ h
  unfold offerTurn
  rw [hg]

theorem offerTurn_error {ws : Windows} {f : Feed v} {st : Status} {written : List UInt8}
    (h : feedTurn ws f = .inr ⟨st, written⟩) (hst : st ≠ .streamEnd) :
    offerTurn ws f = .inr ⟨st, written,
      (decoderProcess f.dec (.ofParts f.unread f.room) f.mode).2.2.unread ++ f.later.flatten⟩ := by
  unfold offerTurn
  rw [h]
  cases st with
  | streamEnd => exact absurd rfl hst
  | _ => rfl

theorem decoderProcess_finished {d : Decoder v} (hfin : d.finished = true) (bytes : List UInt8)
    (room : ℕ) (mode : Flush) :
    decoderProcess d (.ofParts bytes room) mode =
      (if bytes ≠ [] ∧ d.opts.rejectTrailing then .errTrailing else .streamEnd, d,
        .ofParts bytes room) := by
  unfold decoderProcess decoderCall
  rw [if_neg (by simp), if_pos hfin]
  simp only [Buffer.ofParts, List.length_pos_iff]

/-- What a finished handle makes of all that is left. -/
theorem offer_finished (ws : Windows) (later : List (List UInt8)) {f : Feed v}
    (hlater : f.later = later) (hfin : f.dec.finished = true) :
    Returns (offerTurn ws) f ⟨if f.unread ++ later.flatten ≠ [] ∧ f.dec.opts.rejectTrailing then
      .errTrailing else .streamEnd, f.written, f.unread ++ later.flatten⟩ := by
  have hcall := decoderProcess_finished hfin f.unread f.room f.mode
  have hstored : (Buffer.ofParts f.unread f.room).stored = [] := rfl
  induction later generalizing f with
  | nil =>
    refine .done ?_
    rw [List.flatten_nil, List.append_nil]
    by_cases hleft : f.unread ≠ [] ∧ f.dec.opts.rejectTrailing = true
    · rw [if_pos hleft] at hcall ⊢
      unfold offerTurn feedTurn
      simp only [hcall, hlater, hstored, Buffer.unread_ofParts, List.flatten_nil, List.append_nil]
    · rw [if_neg hleft] at hcall ⊢
      unfold offerTurn feedTurn
      simp only [hcall, hlater, hstored, Buffer.unread_ofParts, List.flatten_nil, List.append_nil]
  | cons chunk later ih =>
    by_cases hleft : f.unread ≠ [] ∧ f.dec.opts.rejectTrailing = true
    · rw [if_pos hleft] at hcall
      have hne : f.unread ++ (chunk :: later).flatten ≠ [] := by simp [hleft.1]
      rw [if_pos ⟨hne, hleft.2⟩]
      refine .done ?_
      unfold offerTurn feedTurn
      simp only [hcall, hlater, hstored, Buffer.unread_ofParts, List.append_nil]
    · rw [if_neg hleft] at hcall
      have hnext := @ih ⟨f.dec, f.unread ++ chunk, later, f.room, f.calls + 1, f.written⟩ rfl hfin
        (decoderProcess_finished hfin _ _ _) rfl
      simp only [List.append_assoc] at hnext
      refine hnext.turn ?_
      unfold offerTurn feedTurn
      simp only [hcall, hlater, hstored, Buffer.unread_ofParts, Buffer.availOut_ofParts,
        List.append_nil]

namespace ClosingDecoder

variable {k : ClosingDecoder v} {chunks : List (List UInt8)} {opts : DecoderOpts} {f : Feed v}
  {p q u : ℕ} {o : List UInt8} {st : Status}

theorem Ending.left (h : k.Ending chunks opts f p q u o st) :
    (decoderProcess f.dec (.ofParts f.unread f.room) f.mode).2.2.unread ++ f.later.flatten =
      k.coding.code.drop (p + u) := by
  have hread : u ≤ f.unread.length := by simpa using h.moved.read_le
  have hunread : (decoderProcess f.dec (.ofParts f.unread f.room) f.mode).2.2.unread =
      f.unread.drop u := by simpa using h.moved.unread
  rw [hunread, ← List.drop_drop, ← h.follows.rest, List.drop_append_of_le_length hread]

/-- The caller that offers everything hears the status of the end, judged by all that is left. -/
theorem Ending.offered {ws : Windows} (h : k.Ending chunks opts f p q u o st)
    (hturn : feedTurn ws f =
      .inr ⟨opts.closing k.coding.text.length (u < f.unread.length) st, k.coding.text⟩) :
    Returns (offerTurn ws) f ⟨opts.closing k.coding.text.length
      (decide (k.coding.code.drop (p + u) ≠ [])) st, k.coding.text,
      k.coding.code.drop (p + u)⟩ := by
  have hleft := h.left
  have hunread : (decoderProcess f.dec (.ofParts f.unread f.room) f.mode).2.2.unread =
      f.unread.drop u := by simpa using h.moved.unread
  rw [← hleft]
  by_cases hst : st = .streamEnd
  · subst hst
    rw [DecoderOpts.closing_streamEnd] at hturn ⊢
    by_cases hsize : opts.hasExpected = true ∧ opts.expectedSize.toNat ≠ k.coding.text.length
    · rw [if_pos hsize] at hturn ⊢
      exact .done (offerTurn_error hturn (by simp))
    · rw [if_neg hsize] at hturn ⊢
      by_cases htail : decide (u < f.unread.length) = true ∧ opts.rejectTrailing = true
      · have hne : f.unread.drop u ++ f.later.flatten ≠ [] := by
          have : u < f.unread.length := by simpa using htail.1
          refine List.append_ne_nil_of_left_ne_nil ?_ _
          rw [Ne, List.drop_eq_nil_iff]
          omega
        rw [if_pos htail] at hturn
        rw [hunread, if_pos ⟨decide_eq_true hne, htail.2⟩, ← hunread]
        exact .done (offerTurn_error hturn (by simp))
      · rw [if_neg htail] at hturn
        have hfin := h.finished
        have hopts := h.opts_eq
        cases hlater : f.later with
        | nil =>
          have hnil : ¬ (f.unread.drop u ++ ([] : List (List UInt8)).flatten ≠ [] ∧
              opts.rejectTrailing = true) := by
            intro hboth
            refine htail ⟨?_, hboth.2⟩
            have := hboth.1
            rw [List.flatten_nil, List.append_nil, Ne, List.drop_eq_nil_iff] at this
            simpa using this
          rw [hunread, if_neg fun h => hnil ⟨of_decide_eq_true h.1, h.2⟩, ← hunread]
          refine .done ?_
          unfold offerTurn
          rw [hturn, hlater]
        | cons chunk later =>
          have hrest := offer_finished ws later (f := ⟨(decoderProcess f.dec (.ofParts f.unread f.room)
              f.mode).2.1, f.unread.drop u ++ chunk, later, (decoderProcess f.dec
              (.ofParts f.unread f.room) f.mode).2.2.availOut, f.calls + 1, k.coding.text⟩) rfl hfin
          rw [hopts] at hrest
          rw [hunread]
          simp only [List.append_assoc] at hrest
          simp only [List.flatten_cons, decide_eq_true_eq]
          refine hrest.turn ?_
          unfold offerTurn
          dsimp only
          rw [hturn, hlater, hunread]
  · rw [DecoderOpts.closing_of_ne hst] at hturn ⊢
    exact .done (offerTurn_error hturn hst)

theorem Follows.offered_fails {ws : Windows} (hmax : opts.maxOutput = 0) (hratio : opts.maxRatio = 0)
    (h : k.Follows chunks opts f p q) (hf : k.FailsAt f) :
    ∃ written left, Returns (offerTurn ws) f ⟨.errInvalidData, written, left⟩ ∧
      k.coding.code.length - k.valid < left.length := by
  obtain ⟨written, hturn, hlong⟩ := feedTurn_fails ws hmax hratio h hf
  exact ⟨written, _, .done (offerTurn_error hturn (by simp)), hlong⟩

/-- The caller that offers everything comes to the end of the course, judged by all that is
left, unless one of its calls fails. -/
theorem offer_ends {d : Decoder v} (ws : Windows) (habove : opts.Above k.coding.text.length)
    (hmax : opts.maxOutput = 0) (h : k.Open opts d false 0 0) (hwaits : k.waits 0 = false)
    (hcode : chunks.flatten = k.coding.code) (hne : chunks ≠ []) (room : ℕ) :
    ((∀ g, Reaches (feedTurn ws) (Feed.start d room chunks) g → ¬ k.FailsAt g) ∧
      ∃ f p q u o st, k.Ending chunks opts f p q u o st ∧
        Returns (offerTurn ws) (Feed.start d room chunks) ⟨opts.closing k.coding.text.length
          (decide (k.coding.code.drop (p + u) ≠ [])) st, k.coding.text,
          k.coding.code.drop (p + u)⟩) ∨
    (∃ g, Reaches (feedTurn ws) (Feed.start d room chunks) g ∧ k.FailsAt g) ∧
      ∃ written left, Returns (offerTurn ws) (Feed.start d room chunks)
          ⟨.errInvalidData, written, left⟩ ∧
        k.coding.code.length - k.valid < left.length := by
  obtain ⟨f, p, q, hreach, hfollows, hend⟩ := feed_ends ws habove hmax h hwaits hcode hne room
  rcases hend with hf | ⟨hnone, u, o, st, hending, hturn⟩
  · obtain ⟨written, left, hret, hlong⟩ := hfollows.offered_fails hmax habove.noRatio hf
    exact .inr ⟨⟨f, hreach, hf⟩, written, left, .of_reaches (offer_reaches hreach) hret, hlong⟩
  · exact .inl ⟨hnone, f, p, q, u, o, st, hending,
      .of_reaches (offer_reaches hreach) (hending.offered hturn)⟩

end ClosingDecoder

end Zukomp
