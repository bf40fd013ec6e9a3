import Kovanica.Lib.Codec

/-!
# Messages framed on a stream

A message is written with its length in front, narrowed to 32 bits, and the receiver
refuses what is longer than a cap.  `received_iff` says which messages come through:
where the decoder takes nothing but encodings of `Good` messages, those that are good
and no longer than the cap.

The two directions are `readFrame_frame`, what is sent comes through, and `good_of_readFrame`,
what comes through has been good.
-/

namespace Kovanica.Lib

/-- A message with its length in front: `payload.len() as u32`. -/
def frame {μ : Type} (enc : μ → List U8) (msg : μ) : List U8 :=
  toLeBytes 4 (Word.cast 32 (enc msg).length).val ++ enc msg

namespace Reader

variable {ε μ : Type}

/-- The next frame: `eof` when the stream ends first, `large` when it is over the cap. -/
def readFrame (eof large : ε) (cap : Nat) (dec : List U8 → Except ε μ) : Reader ε μ :=
  readWord eof 4 32 >>= fun len =>
    if cap < len.val then fail large
    else readSlice eof len.val >>= fun payload => lift (dec payload)

variable {eof large : ε} {cap : Nat} {enc : μ → List U8} {dec : List U8 → Except ε μ}
  {Good : μ → Prop}

theorem readFrame_frame (hcap : cap < 2 ^ 32) {msg : μ} (hdec : dec (enc msg) = .ok msg)
    (hlen : (enc msg).length ≤ cap) : Reads (readFrame eof large cap dec) (frame enc msg) msg := by
  have hcast : (Word.cast 32 (enc msg).length).val = (enc msg).length :=
    Word.cast_of_lt (lt_of_le_of_lt hlen hcap)
  have hword := reads_readWord eof (n := 4) (w := 32) (by decide) (Word.cast 32 (enc msg).length)
  apply hword.bind
  rw [hcast, if_neg (not_lt.2 hlen)]
  exact (reads_readSlice eof (enc msg)).bind_nil (reads_lift hdec)

/-- What comes out of a frame is the message only if it was good and not too long: the
receiver decodes a prefix of what was written. -/
theorem good_of_readFrame (hdec : ∀ bytes msg, dec bytes = .ok msg → enc msg = bytes ∧ Good msg)
    {msg : μ} {bytes rest : List U8}
    (h : readFrame eof large cap dec (frame enc msg ++ bytes) = .ok (msg, rest)) :
    Good msg ∧ (enc msg).length ≤ cap := by
  have hword := reads_readWord eof (n := 4) (w := 32) (by decide) (Word.cast 32 (enc msg).length)
  rw [readFrame, frame, List.append_assoc, bind_ok (hword _)] at h
  split at h
  · cases h
  · rename_i hlen
    obtain ⟨payload, mid, hslice, h⟩ := bind_eq_ok.1 h
    obtain ⟨henc, hgood⟩ := hdec _ _ (lift_eq_ok.1 h).1
    rw [henc, (readSlice_eq_ok hslice).1]
    exact ⟨hgood, not_lt.1 hlen⟩

/-- The messages of a stream are received, one for one, exactly if all of them are good
and no longer than the cap. -/
theorem received_iff (eof large : ε) (hcap : cap < 2 ^ 32)
    (hdec : ∀ bytes msg, dec bytes = .ok msg → enc msg = bytes ∧ Good msg)
    (hgood : ∀ msg, Good msg → (enc msg).length ≤ cap → dec (enc msg) = .ok msg) (msgs : List μ)
    (bytes : List U8) :
    (∃ rest, readMany (readFrame eof large cap dec) msgs.length
      (msgs.flatMap (frame enc) ++ bytes) = .ok (msgs, rest)) ↔
      ∀ msg ∈ msgs, Good msg ∧ (enc msg).length ≤ cap := by
  induction msgs with
  | nil => exact ⟨fun _ _ h => absurd h List.not_mem_nil, fun _ => ⟨bytes, rfl⟩⟩
  | cons msg msgs ih =>
      rw [List.length_cons, List.flatMap_cons, List.append_assoc, readMany, List.forall_mem_cons,
        ← ih]
      constructor
      · rintro ⟨rest, h⟩
        obtain ⟨msg', mid, hread, h⟩ := bind_eq_ok.1 h
        obtain ⟨msgs', mid', hmany, h⟩ := bind_eq_ok.1 h
        obtain ⟨heq, rfl⟩ := pure_eq_ok.1 h
        obtain ⟨rfl, rfl⟩ := List.cons.inj heq
        have hfirst := good_of_readFrame hdec hread
        rw [readFrame_frame hcap (hgood _ hfirst.1 hfirst.2) hfirst.2] at hread
        obtain ⟨_, rfl⟩ := Prod.mk.inj (Except.ok.inj hread)
        exact ⟨hfirst, mid', hmany⟩
      · rintro ⟨hfirst, rest, hmany⟩
        have hread : Reads (readFrame eof large cap dec) (frame enc msg) msg :=
          readFrame_frame hcap (hgood _ hfirst.1 hfirst.2) hfirst.2
        refine ⟨rest, ?_⟩
        rw [bind_ok (hread _), bind_ok hmany]
        rfl

end Reader

end Kovanica.Lib
