import StackLang.Proofs.Characters

/-!
# Where tokens end

How many characters are read as one token is settled by these characters: the same ones are read
from any text that starts with them, as long as a word is not run into the next one. Upper case
changes no extent.

- `Spans`: an array, a quoted literal or a word at the start of a text; `tokenExtent_eq_ok_iff`.
- `Spans.append`: a token is read again from its own characters.
- `Spans.upper`: and from these in upper case.
-/

set_option autoImplicit false

namespace StackLang.Lexer

open CharClass (isSpace isCaseless toUpper)

/-! ## Extents depend on the characters they cover -/

theorem QuotedExtent.succ_eq_closed {e : QuotedExtent} {n : Nat} :
    e.succ = ⟨n, true⟩ ↔ ∃ m, n = m + 1 ∧ e = ⟨m, true⟩ := by
  obtain ⟨m, closed⟩ := e
  simp only [succ, mk.injEq]
  grind

theorem ArrayExtent.succ_eq_closed {e : ArrayExtent} {n : Nat} :
    e.succ = .closed n ↔ ∃ m, n = m + 1 ∧ e = .closed m := by
  cases e <;> simp [succ]
  grind

theorem quotedExtent_of_take {quote : Char} {escaped : Bool} {cs ds : List Char} {n : Nat}
    (h : quotedExtent quote escaped cs = ⟨n, true⟩) (hp : cs.take n <+: ds) :
    quotedExtent quote escaped ds = ⟨n, true⟩ := by
  fun_induction quotedExtent quote escaped cs generalizing ds n with
  | case1 => cases h
  | case2 => cases h
  | case3 c cs hnl ih =>
    obtain ⟨m, rfl, hm⟩ := QuotedExtent.succ_eq_closed.1 h
    obtain ⟨ds, rfl, hds⟩ := List.cons_prefix_iff.1 hp
    rw [quotedExtent, if_neg hnl, if_pos rfl, ih hm hds]
    rfl
  | case4 escaped cs hnl he ih =>
    obtain ⟨m, rfl, hm⟩ := QuotedExtent.succ_eq_closed.1 h
    obtain ⟨ds, rfl, hds⟩ := List.cons_prefix_iff.1 hp
    rw [quotedExtent, if_neg hnl, if_neg he, if_pos rfl, ih hm hds]
    rfl
  | case5 escaped cs hnl he hb =>
    obtain ⟨rfl⟩ := h
    obtain ⟨ds, rfl, -⟩ := List.cons_prefix_iff.1 hp
    rw [quotedExtent, if_neg hnl, if_neg he, if_neg hb, if_pos rfl]
  | case6 escaped c cs hnl he hb hq ih =>
    obtain ⟨m, rfl, hm⟩ := QuotedExtent.succ_eq_closed.1 h
    obtain ⟨ds, rfl, hds⟩ := List.cons_prefix_iff.1 hp
    rw [quotedExtent, if_neg hnl, if_neg he, if_neg hb, if_neg hq, ih hm hds]
    rfl

theorem le_of_arrayExtent {skip : Nat} {cs : List Char} {n : Nat}
    (h : arrayExtent skip cs = .closed n) : skip ≤ n := by
  fun_induction arrayExtent skip cs generalizing n with
  | case1 => cases h
  | case2 skip c cs ih =>
    obtain ⟨m, rfl, hm⟩ := ArrayExtent.succ_eq_closed.1 h
    have := ih hm
    omega
  | _ => exact Nat.zero_le n

theorem arrayExtent_of_take {skip : Nat} {cs ds : List Char} {n : Nat}
    (h : arrayExtent skip cs = .closed n) (hp : cs.take n <+: ds) :
    arrayExtent skip ds = .closed n := by
  fun_induction arrayExtent skip cs generalizing ds n with
  | case1 => cases h
  | case2 skip c cs ih =>
    obtain ⟨m, rfl, hm⟩ := ArrayExtent.succ_eq_closed.1 h
    obtain ⟨ds, rfl, hds⟩ := List.cons_prefix_iff.1 hp
    rw [arrayExtent, ih hm hds]
    rfl
  | case3 c cs hq q hc =>
    rename_i ih
    obtain ⟨m, rfl, hm⟩ := ArrayExtent.succ_eq_closed.1 h
    obtain ⟨ds, rfl, hds⟩ := List.cons_prefix_iff.1 hp
    have hclosed : quotedExtent c false cs = ⟨q.length, true⟩ := by rw [← hc]
    have hquoted := quotedExtent_of_take hclosed
      ((List.take_prefix_take_left (le_of_arrayExtent hm)).trans hds)
    rw [arrayExtent, if_pos hq]
    simp only [hquoted, if_true, ih hm hds]
    rfl
  | case4 c cs hq hc => cases h
  | case5 cs hq =>
    obtain ⟨rfl⟩ := h
    obtain ⟨ds, rfl, -⟩ := List.cons_prefix_iff.1 hp
    rfl
  | case6 c cs hq hc ih =>
    obtain ⟨m, rfl, hm⟩ := ArrayExtent.succ_eq_closed.1 h
    obtain ⟨ds, rfl, hds⟩ := List.cons_prefix_iff.1 hp
    rw [arrayExtent, if_neg hq, if_neg hc, ih hm hds]
    rfl

theorem quotedExtent_le (quote : Char) (escaped : Bool) (cs : List Char) :
    (quotedExtent quote escaped cs).length ≤ cs.length := by
  fun_induction quotedExtent quote escaped cs <;>
    simp only [QuotedExtent.succ, List.length_nil, List.length_cons] <;> omega

theorem arrayExtent_le {skip : Nat} {cs : List Char} {n : Nat}
    (h : arrayExtent skip cs = .closed n) : n ≤ cs.length := by
  fun_induction arrayExtent skip cs generalizing n with
  | case1 | case4 => cases h
  | case5 => cases h; simp
  | case2 skip c cs ih | case6 c cs hq hc ih =>
    obtain ⟨m, rfl, hm⟩ := ArrayExtent.succ_eq_closed.1 h
    exact Nat.succ_le_succ (ih hm)
  | case3 c cs hq q hc =>
    rename_i ih
    obtain ⟨m, rfl, hm⟩ := ArrayExtent.succ_eq_closed.1 h
    exact Nat.succ_le_succ (ih hm)

theorem wordExtent_le (cs : List Char) : wordExtent cs ≤ cs.length := by
  fun_induction wordExtent cs with
  | case1 => exact Nat.le_refl 0
  | case2 => exact Nat.zero_le _
  | case3 c cs h ih => exact Nat.succ_le_succ ih

/-- What may stand behind a token: nothing, or a blank and more. -/
def Separates (rest : List Char) : Prop := rest = [] ∨ ∃ more, rest = ' ' :: more

theorem atComment_iff {cs : List Char} : atComment cs = true ↔ ['/', '/'] <+: cs := by
  unfold atComment
  split
  · simp
  · rename_i hno
    refine ⟨fun h => (Bool.false_ne_true h).elim, ?_⟩
    rintro ⟨more, rfl⟩
    exact absurd rfl (hno more)

theorem atComment_append {cs rest : List Char} (h : atComment cs = false) (hr : Separates rest) :
    atComment (cs ++ rest) = false := by
  refine Bool.eq_false_iff.2 fun hat => Bool.eq_false_iff.1 h ?_
  rw [atComment_iff] at hat ⊢
  rcases hr with rfl | ⟨more, rfl⟩
  · rwa [List.append_nil] at hat
  · -- The two slashes come before the blank.
    cases cs with
    | nil => simp at hat
    | cons c cs =>
      cases cs with
      | nil => simp at hat
      | cons d cs => simpa using hat

theorem wordExtent_append (cs : List Char) {rest : List Char} (hr : Separates rest) :
    wordExtent (cs.take (wordExtent cs) ++ rest) = wordExtent cs := by
  have hrest : wordExtent rest = 0 := by
    rcases hr with rfl | ⟨more, rfl⟩
    · rfl
    · simp [wordExtent, isSpace]
  induction cs with
  | nil => exact hrest
  | cons c cs ih =>
    rw [wordExtent]
    split
    · exact hrest
    · rename_i hstop
      simp only [Bool.or_eq_true, not_or, Bool.not_eq_true] at hstop
      have hat : atComment (c :: cs.take (wordExtent cs)) = false := by
        refine Bool.eq_false_iff.2 fun h => Bool.eq_false_iff.1 hstop.2 ?_
        rw [atComment_iff] at h ⊢
        exact h.trans (List.prefix_cons_inj c |>.2 (List.take_prefix _ _))
      rw [List.take_succ_cons, List.cons_append, wordExtent, ← List.cons_append,
        atComment_append hat hr, hstop.1, ih]
      rfl

/-! ## Tokens -/

theorem atArray_take {cs : List Char} :
    atArray (cs.take arrayStart.length) = true ↔
      (cs.take arrayStart.length).map CharClass.asciiLower = arrayStart := by
  unfold atArray
  rw [List.isPrefixOf_iff_prefix]
  refine ⟨fun h => (h.eq_of_length_le ?_).symm, fun h => ⟨[], by rw [List.append_nil, h]⟩⟩
  rw [List.length_map]
  exact List.length_take_le _ _

/-- How many of the first characters are read as one token. -/
inductive Spans : List Char → Nat → Prop
  | array {cs : List Char} {n : Nat} (hat : atArray (cs.take arrayStart.length) = true)
    (h : arrayExtent 0 (cs.drop arrayStart.length) = .closed n) : Spans cs (arrayStart.length + n)
  | quoted {c : Char} {cs : List Char} {n : Nat} (hc : c = '"' ∨ c = '\'')
    (h : quotedExtent c false cs = ⟨n, true⟩) : Spans (c :: cs) (n + 1)
  | word {c : Char} {cs : List Char} (hat : atArray ((c :: cs).take arrayStart.length) = false)
    (hc : ¬(c = '"' ∨ c = '\'')) : Spans (c :: cs) (wordExtent (c :: cs))

theorem not_atArray_quote {c : Char} (hc : c = '"' ∨ c = '\'') (cs : List Char) :
    atArray ((c :: cs).take arrayStart.length) = false := by
  rcases hc with rfl | rfl <;> rfl

theorem tokenExtent_eq_ok_iff {file : Text} {pos : Position} {c : Char} {cs : List Char} {n : Nat} :
    tokenExtent file pos (c :: cs) = .ok n ↔ Spans (c :: cs) n := by
  unfold tokenExtent
  refine ⟨fun h => ?_, fun h => ?_⟩
  · split at h
    · rename_i hat
      split at h
      · rename_i m hm
        cases h
        exact .array hat hm
      · cases h
      · cases h
    · rename_i hat
      dsimp only at h
      split at h
      · rename_i hc
        split at h
        · rename_i hq
          cases h
          exact .quoted hc (by rw [← hq])
        · cases h
      · rename_i hc
        cases h
        exact .word (Bool.eq_false_iff.2 hat) hc
  · cases h with
    | array hat h => simp only [hat, h, if_true]
    | quoted hc h => simp [not_atArray_quote hc, hc, h]
    | word hat hc => simp [hat, hc]

theorem Spans.le_length {cs : List Char} {n : Nat} (h : Spans cs n) : n ≤ cs.length := by
  cases h with
  | array hat h =>
    have hlen := congrArg List.length (atArray_take.1 hat)
    have hle := arrayExtent_le h
    simp only [List.length_map, List.length_take, List.length_drop] at hlen hle
    omega
  | @quoted c cs n hc h =>
    have hle := quotedExtent_le c false cs
    rw [h] at hle
    exact Nat.succ_le_succ hle
  | word hat hc => exact wordExtent_le _

/-- A blank is no part of the word that starts an array. -/
theorem atArray_append {cs rest : List Char} (h : atArray (cs.take arrayStart.length) = false)
    (hr : Separates rest) (n : Nat) :
    atArray ((cs.take n ++ rest).take arrayStart.length) = false := by
  refine Bool.eq_false_iff.2 fun hat => ?_
  rw [atArray_take] at hat
  have hlen := congrArg List.length hat
  by_cases hn : arrayStart.length ≤ (cs.take n).length
  · rw [List.take_append_of_le_length hn, List.take_take,
      Nat.min_eq_left (Nat.le_trans hn (List.length_take_le n cs)), ← atArray_take, h] at hat
    cases hat
  · rcases hr with rfl | ⟨more, rfl⟩
    · simp only [List.length_map, List.length_take, List.append_nil] at hlen hn
      omega
    · obtain ⟨m, hm⟩ : ∃ m, arrayStart.length - (cs.take n).length = m + 1 :=
        ⟨arrayStart.length - (cs.take n).length - 1, by omega⟩
      have hblank : ' ' ∈ (cs.take n ++ ' ' :: more).take arrayStart.length := by
        rw [List.take_append, hm, List.take_succ_cons]
        exact List.mem_append_right _ List.mem_cons_self
      have hmem := List.mem_map_of_mem (f := CharClass.asciiLower) hblank
      rw [hat] at hmem
      revert hmem
      decide

/-- **A token is read again from its own characters**, whatever stands behind them. -/
theorem Spans.append {cs rest : List Char} {n : Nat} (h : Spans cs n) (hn : 0 < n)
    (hr : Separates rest) : Spans (cs.take n ++ rest) n := by
  cases h with
  | @array _ m hat h =>
    have hlen := congrArg List.length (atArray_take.1 hat)
    rw [List.length_map] at hlen
    rw [List.take_add, List.append_assoc]
    refine .array ?_ ?_
    · rwa [List.take_left' hlen]
    · rw [List.drop_left' hlen]
      exact arrayExtent_of_take h (List.prefix_append _ _)
  | quoted hc h => exact .quoted hc (quotedExtent_of_take h (List.prefix_append _ _))
  | @word c cs hat hc =>
    have hword := wordExtent_append (c :: cs) hr
    have harray := atArray_append hat hr (wordExtent (c :: cs))
    generalize wordExtent (c :: cs) = n at hn hword harray ⊢
    obtain ⟨m, rfl⟩ : ∃ m, n = m + 1 := ⟨n - 1, by omega⟩
    rw [List.take_succ_cons, List.cons_append] at hword harray ⊢
    rw [← hword]
    exact .word harray hc

/-! ## Upper case -/

theorem map_eq_iff_of_forall {α β : Type} {f g : α → β} {ys : List β}
    (h : ∀ y ∈ ys, ∀ a, f a = y ↔ g a = y) (l : List α) : l.map f = ys ↔ l.map g = ys := by
  induction l generalizing ys with
  | nil => rfl
  | cons a l ih =>
    cases ys with
    | nil => simp
    | cons y ys =>
      obtain ⟨hy, hys⟩ := List.forall_mem_cons.1 h
      rw [List.map_cons, List.map_cons, List.cons.injEq, List.cons.injEq, hy, ih hys]

theorem atArray_upper (cs : List Char) :
    atArray ((cs.map toUpper).take arrayStart.length) = atArray (cs.take arrayStart.length) := by
  have hstart : ∀ x ∈ arrayStart, x.toNat < 0x80 ∧ x ≠ 'i' ∧ x ≠ 's' := by
    simp only [arrayStart, List.forall_mem_cons, List.not_mem_nil, false_implies, implies_true]
    decide
  rw [Bool.eq_iff_iff, atArray_take, atArray_take, ← List.map_take, List.map_map]
  exact map_eq_iff_of_forall (fun x hx c =>
    CharClass.asciiLower_toUpper (hstart x hx).1 (hstart x hx).2.1 (hstart x hx).2.2 c) _

theorem atComment_upper (cs : List Char) : atComment (cs.map toUpper) = atComment cs := by
  have hslash := CharClass.toUpper_eq_iff (show isCaseless '/' = true by decide)
  rw [Bool.eq_iff_iff, atComment_iff, atComment_iff]
  cases cs with
  | nil => rfl
  | cons c cs =>
    cases cs with
    | nil => simp
    | cons d cs => simp [@eq_comm _ '/', hslash]

theorem wordExtent_upper (cs : List Char) : wordExtent (cs.map toUpper) = wordExtent cs := by
  induction cs with
  | nil => rfl
  | cons c cs ih =>
    rw [List.map_cons, wordExtent, wordExtent, ← List.map_cons, atComment_upper,
      CharClass.isSpace_toUpper, ih]

theorem quotedExtent_upper {quote : Char} (hq : isCaseless quote = true) (escaped : Bool)
    (cs : List Char) :
    quotedExtent quote escaped (cs.map toUpper) = quotedExtent quote escaped cs := by
  have hnl := CharClass.toUpper_eq_iff (show isCaseless '\n' = true by decide)
  have hb := CharClass.toUpper_eq_iff (show isCaseless '\\' = true by decide)
  have hq := CharClass.toUpper_eq_iff hq
  induction cs generalizing escaped with
  | nil => rfl
  | cons c cs ih => simp only [List.map_cons, quotedExtent, hnl, hb, hq, ih]

theorem arrayExtent_upper (skip : Nat) (cs : List Char) :
    arrayExtent skip (cs.map toUpper) = arrayExtent skip cs := by
  have hd := CharClass.toUpper_eq_iff (show isCaseless '"' = true by decide)
  have hs := CharClass.toUpper_eq_iff (show isCaseless '\'' = true by decide)
  have hp := CharClass.toUpper_eq_iff (show isCaseless ')' = true by decide)
  induction cs generalizing skip with
  | nil => rfl
  | cons c cs ih =>
    cases skip with
    | succ skip => simp only [List.map_cons, arrayExtent, ih]
    | zero =>
      by_cases hq : c = '"' ∨ c = '\''
      · have hc : isCaseless c = true := by rcases hq with rfl | rfl <;> decide
        simp only [List.map_cons, arrayExtent, (CharClass.toUpper_eq_iff hc c).2 rfl, ih,
          quotedExtent_upper hc]
      · simp only [List.map_cons, arrayExtent, hd, hs, hp, hq, if_false, ih]

theorem Spans.upper {cs : List Char} {n : Nat} (h : Spans cs n) : Spans (cs.map toUpper) n := by
  cases h with
  | array hat h =>
    refine .array ?_ ?_
    · rwa [atArray_upper]
    · rwa [← List.map_drop, arrayExtent_upper]
  | @quoted c cs n hc h =>
    have hcl : isCaseless c = true := by rcases hc with rfl | rfl <;> decide
    rw [List.map_cons, (CharClass.toUpper_eq_iff hcl c).2 rfl]
    exact .quoted hc (by rwa [quotedExtent_upper hcl])
  | @word c cs hat hc =>
    rw [← wordExtent_upper]
    refine .word ?_ ?_
    · rwa [← List.map_cons, atArray_upper]
    · rwa [CharClass.toUpper_eq_iff (by decide), CharClass.toUpper_eq_iff (by decide)]

end StackLang.Lexer
