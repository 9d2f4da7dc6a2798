import StackLang.Assembly.Artifact

/-!
# Writing an artifact

An artifact is written piece by piece: for each section the line that opens it, and then its lines, of
which there may be none. A writer may run out of room at any byte, at the end of a piece or inside one.

- `Bounded.write_append`, `Bounded.write_append_of_short`: two pieces are taken like one.
- `writeChunks_bounded`: pieces that are written one by one come to the same as one write of them all.
- `written_up_to_limit`: what a writer has taken when it runs out of room, and what is reported of it.
-/

set_option autoImplicit false

namespace StackLang.Assembly.Artifact

namespace Bounded

variable {w : Bounded} {t : Text}

theorem failed_write : (w.write t).failed = true ↔ w.room < t.length := by
  simp [write]

/-- A piece that does not fit ends the writing: nothing behind it is taken. -/
theorem write_append_of_short (h : (w.write t).failed = true) (u : Text) :
    w.write (t ++ u) = w.write t := by
  rw [failed_write] at h
  have hroom : w.room - (t ++ u).length = w.room - t.length := by
    rw [List.length_append]
    omega
  have htake : (t ++ u).take w.room = t.take w.room := List.take_append_of_le_length (Nat.le_of_lt h)
  have hcount : min (t ++ u).length w.room = min t.length w.room := by
    rw [List.length_append]
    omega
  have hfailed : w.room < (t ++ u).length := by
    rw [List.length_append]
    omega
  simp only [write, hroom, htake, hcount, h, hfailed]

/-- Behind a piece that fits, the next one is taken as if both were one. -/
theorem write_append (h : (w.write t).failed = false) (u : Text) :
    w.write (t ++ u) = ⟨((w.write t).writer.write u).writer,
      (w.write t).count + ((w.write t).writer.write u).count,
      ((w.write t).writer.write u).failed⟩ := by
  have hfits : t.length ≤ w.room := by
    rw [← Bool.not_eq_true, failed_write] at h
    exact Nat.le_of_not_lt h
  have hroom : w.room - (t ++ u).length = w.room - t.length - u.length := by
    rw [List.length_append]
    omega
  have htake : (t ++ u).take w.room = t.take w.room ++ u.take (w.room - t.length) :=
    List.take_append
  have hcount : min (t ++ u).length w.room
      = min t.length w.room + min u.length (w.room - t.length) := by
    rw [List.length_append]
    omega
  have hfailed : decide (w.room < (t ++ u).length) = decide (w.room - t.length < u.length) := by
    rw [decide_eq_decide, List.length_append]
    omega
  simp only [write, hroom, htake, hcount, hfailed, List.append_assoc]
  rfl

end Bounded

/-- **Pieces written one by one** come to the same as all of them at once, wherever the room ends. -/
theorem writeChunks_bounded (cs : List Text) (w : Bounded) (total : Nat) :
    writeChunks Bounded.write w total cs = ⟨(w.write cs.flatten).writer,
      total + (w.write cs.flatten).count, (w.write cs.flatten).failed⟩ := by
  induction cs generalizing w total with
  | nil => simp [writeChunks, Bounded.write]
  | cons c cs ih =>
    rw [writeChunks, List.flatten_cons]
    by_cases h : (w.write c).failed = true
    · rw [if_pos h, Bounded.write_append_of_short h, h]
    · rw [if_neg h, ih, Bounded.write_append (Bool.not_eq_true _ ▸ h), Nat.add_assoc]

/-- **Writing with a limit.** The size of an artifact is the length of its text, whatever was put into it.
A writer with room for `limit` bytes is given exactly the first bytes of the text that fit, their number
is returned, and the writing fails if and only if the text is longer. -/
theorem written_up_to_limit (a : Artifact) (limit : Nat) :
    a.size = a.render.length ∧
      ∃ r, a.writeTo Bounded.write { room := limit } = r ∧
        r.writer.taken = a.render.take (min limit a.size) ∧
        r.count = min limit a.size ∧
        (r.failed = true ↔ limit < a.size) := by
  have hsize := a.length_render
  refine ⟨hsize.symm, _, writeChunks_bounded _ _ _, ?_, ?_, ?_⟩
  · change [] ++ a.render.take limit = _
    rw [List.nil_append, ← hsize, List.take_eq_take_min, Nat.min_comm]
  · change 0 + min a.render.length limit = _
    rw [Nat.zero_add, hsize, Nat.min_comm]
  · rw [← hsize]
    exact Bounded.failed_write

end StackLang.Assembly.Artifact
