import StackLang.Proofs.GeneratedAssembly
import StackLang.Proofs.Templates

/-!
# Labels and comments of a generated text

In the text of a program every label stands once, so that jumps find it, and the comments and labels
that mark points of the program are told apart from each other and from those of the frame.

- `findLabel_of_nodup`: a label that stands once is found.
- `linked_layout`: the text of a program is linked.
-/

set_option autoImplicit false

namespace StackLang.Machine

open Assembly Assembly.Verify Codegen

/-! ## Finding labels -/

theorem mem_qualified {name : Text} (hg : name.head? ≠ some (Text.byte '.')) {ls : List Line}
    (h : .label name ∈ ls) (scope : Text) : name ∈ qualified scope (ls.flatMap Line.labels) := by
  obtain ⟨before, after, rfl⟩ := List.append_of_mem h
  rw [List.flatMap_append, List.flatMap_cons, Line.labels, List.singleton_append, qualified_append,
    qualified, qualify, if_neg hg]
  simp

theorem findLabel_of_nodup {name : Text} (hg : name.head? ≠ some (Text.byte '.'))
    {code : List Line} {scope : Text} (hnd : (qualified scope (code.flatMap Line.labels)).Nodup)
    {j : Nat} (hj : code[j]? = some (.label name)) : findLabel name scope code = some j := by
  induction code generalizing scope j with
  | nil => simp at hj
  | cons l ls ih =>
    cases j with
    | zero =>
      obtain rfl := Option.some.inj hj
      simp [findLabel, label?, qualify, hg]
    | succ j =>
      rw [List.getElem?_cons_succ] at hj
      cases l with
      | label s =>
        obtain ⟨hne, hnd⟩ := List.nodup_cons.1 hnd
        have hs : qualify s scope ≠ name := by
          rintro rfl
          exact hne (mem_qualified hg (List.mem_of_getElem? hj) _)
        simp [findLabel, label?, hs, ih hnd hj]
      | _ => simp [findLabel, label?, ih hnd hj]

/-! ## Points -/

/-- A comment starts with the number of its operation, which a space ends. -/
theorem takeWhile_remark {prog : Program} (hi : prog.Indexed) {op : Operation} (ho : op ∈ prog) :
    (remark op).takeWhile (· ≠ Text.byte ' ') = Text.ofNat op.place := by
  have hdigits : ∀ b ∈ Text.ofNat op.place, decide (b ≠ Text.byte ' ') = true := by
    intro b hb
    refine decide_eq_true fun he => ?_
    have hdigit := Text.digits_ofNat hb
    rw [he] at hdigit
    revert hdigit
    decide
  rw [remark, index_eq_place hi ho, Text.ofInt_natCast, List.append_assoc,
    List.takeWhile_append_of_pos hdigits]
  exact List.append_nil _

theorem remark_injective {prog : Program} (hi : prog.Indexed) {o o' : Operation} (ho : o ∈ prog)
    (ho' : o' ∈ prog) (h : remark o = remark o') : o = o' := by
  refine Blocks.eq_of_place_eq hi ho ho' (Text.ofNat_inj ?_)
  rw [← takeWhile_remark hi ho, ← takeWhile_remark hi ho', h]

/-- The comment of the epilogue is not that of an operation. -/
theorem remark_ne_epilogue {prog : Program} (hi : prog.Indexed) {op : Operation} (ho : op ∈ prog) :
    epilogue.head? ≠ some (.comment (remark op)) := by
  intro h
  injection Option.some.inj h with h
  have hnum := takeWhile_remark hi ho
  rw [← h] at hnum
  have hletter : Text.byte 'e' ∈ Text.ofNat op.place := by
    rw [← hnum]
    decide
  exact absurd (Text.digits_ofNat hletter) (by decide)

theorem find?_of_unique {prog : Program} {p : Operation → Bool} {op : Operation} (ho : op ∈ prog)
    (hp : p op = true) (hu : ∀ o ∈ prog, p o = true → o = op) : prog.find? p = some op := by
  cases hf : prog.find? p with
  | none =>
    rw [List.find?_eq_none] at hf
    exact absurd hp (hf op ho)
  | some o => rw [hu o (List.mem_of_find?_eq_some hf) (List.find?_some hf)]

section
variable {prog : Program} (hi : prog.Indexed)
include hi

theorem point?_remark {op : Operation} (ho : op ∈ prog) :
    point? prog (.comment (remark op)) = some (.start op) := by
  have hfind : prog.find? (fun o => remark o = remark op) = some op :=
    find?_of_unique ho (decide_eq_true rfl) fun o ho' h =>
      remark_injective hi ho' ho (of_decide_eq_true h)
  rw [point?, if_neg (remark_ne_epilogue hi ho), hfind]
  rfl

/-- The label of a landing, as a name. -/
theorem landing_text {op : Operation} (ho : op ∈ prog)
    (hl : BlockTree.isLanding op.action = true) :
    ∃ k, op.label = (Name.indexed (.mark k) op.place).text := by
  cases ha : op.action with
  | keyword k => exact ⟨k, Name.text_mark ha (index_eq_place hi ho)⟩
  | pushInt | pushString | pushCString | pushArray | primitive p | unassigned n =>
    rw [ha] at hl
    cases hl

theorem point?_label {op : Operation} (ho : op ∈ prog)
    (hl : BlockTree.isLanding op.action = true) :
    point? prog (.label op.label) = some (.label op) := by
  have hfind : prog.find? (fun o => BlockTree.isLanding o.action && o.label = op.label) = some op := by
    refine find?_of_unique ho (by simp [hl]) fun o ho' h => ?_
    obtain ⟨hl', he⟩ := Bool.and_eq_true_iff.1 h
    obtain ⟨k, hk⟩ := landing_text hi ho hl
    obtain ⟨k', hk'⟩ := landing_text hi ho' hl'
    have hname := Name.text_injective (hk'.symm.trans ((of_decide_eq_true he).trans hk))
    injection hname with _ hplace
    exact Blocks.eq_of_place_eq hi ho' ho hplace
  rw [point?, hfind]
  rfl

omit hi in
/-- A label that starts like no keyword marks nothing. -/
theorem point?_other {name : Text} (h : ∀ k : Keyword, k.name.head? ≠ name.head?) :
    point? prog (.label name) = none := by
  have hfind : prog.find? (fun o => BlockTree.isLanding o.action && o.label = name) = none := by
    refine List.find?_eq_none.2 fun o ho hp => ?_
    obtain ⟨hl, he⟩ := Bool.and_eq_true_iff.1 hp
    obtain rfl := of_decide_eq_true he
    cases ha : o.action with
    | keyword k =>
      refine h k ?_
      rw [Operation.label, ha]
      cases k <;> rfl
    | pushInt | pushString | pushCString | pushArray | primitive p | unassigned n =>
      rw [ha] at hl
      cases hl
  rw [point?, hfind]
  rfl

/-- Whether a line is a comment. -/
def isComment : Line → Bool
  | .comment _ => true
  | _ => false

omit hi in
/-- The lines of the frame mark nothing. -/
theorem point?_preamble {l : Line} (hl : l ∈ preamble) : point? prog l = none := by
  cases l with
  | label name =>
    have hm : name ∈ preamble.flatMap Line.labels :=
      List.mem_flatMap.2 ⟨_, hl, by simp [Line.labels]⟩
    have hall : ∀ s ∈ preamble.flatMap Line.labels,
        ∀ k ∈ Keyword.all, k.name.head? ≠ s.head? := by decide
    exact point?_other fun k => hall name hm k (by cases k <;> simp [Keyword.all])
  | comment t =>
    have hnone : ∀ l ∈ preamble, isComment l = false := by decide
    cases hnone _ hl
  | _ => rfl

end

/-! ## The text of a program -/

section
variable {c : BlockTree.Code false} {table : BlockTable} (hi : Program.Indexed c.flatten)
  (hs : Program.Sound c.flatten) (size : Int) (h : Blocks.resolve c.flatten = .ok table)
include hi hs h

/-- Every label stands once. -/
theorem nodup_qualified_layout :
    (qualified [] ((layout c.flatten table size).code.toList.flatMap Line.labels)).Nodup := by
  have hnd := (List.nodup_append.1 (layout_closed hi hs size h).once).2.1
  rw [labels_layout hi hs size h, qualified_preamble] at hnd ⊢
  exact hnd

/-- A label that is not a local one leads to its line from everywhere. -/
theorem destination_layout {j : Nat} {name : Text}
    (hj : (layout c.flatten table size).code.toList[j]? = some (.label name))
    (hg : name.head? ≠ some (Text.byte '.')) (pc : Nat) :
    destination (layout c.flatten table size).code.toList pc name = some j := by
  rw [destination, qualify, if_neg hg]
  exact findLabel_of_nodup hg (nodup_qualified_layout hi hs size h) hj

/-- **The text of a program is linked.** -/
theorem linked_layout (hshort : (layout c.flatten table size).code.size < 2 ^ 64) :
    Linked c.flatten (layout c.flatten table size).code.toList where
  frame := by
    rw [layout]
    exact ⟨_, rfl⟩
  short := by simpa using hshort
  resolves j name hj hg pc := destination_layout hi hs size h hj hg pc
  quiet l hl := point?_preamble hl
  quiet_power i := by
    have hpower : ∀ k : Keyword, k.name.head? ≠ some (Text.byte 'P') := by
      intro k
      cases k <;> decide
    exact ⟨point?_other hpower, point?_other hpower⟩
  start op ho := point?_remark hi ho
  label op ho hl := point?_label hi ho hl

end

end StackLang.Machine
