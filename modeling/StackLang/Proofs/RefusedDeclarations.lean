import Mathlib.Data.List.Induction
import Mathlib.Data.List.Perm.Basic
import StackLang.Proofs.DeclarationOrder
import StackLang.Proofs.SymbolNames

/-!
# Refused declarations

Most declarations that are refused leave the artifact as it was. An array is the exception: its symbol
is entered first and its elements follow one by one, so when the name of an element is taken, the symbol
and the elements in front stay, and the table of pointers is missing. The symbol then has no data, and
no later declaration can give it any.

- `BreaksOff`: the arrays that are refused half-way.
- `Applied`: what a declaration comes to.
- `Unfinished`: the symbols that a sequence of edits has left without data.
- `orderly_edited`: the invariant, that all other symbols have their data.
- `refused_declarations_keep_or_break_off`: what refusals leave, and where the symbols are defined.
-/

set_option autoImplicit false

namespace StackLang.Assembly

open Text Verify Verifier Artifact

/-! ## Names of elements -/

theorem elementName_eq (sym : Text) (i : Nat) : elementName sym i = sym ++ (byte '_' :: ofNat i) := by
  rw [elementName, List.append_assoc]
  rfl

theorem elementName_inj {sym : Text} {i j : Nat} (h : elementName sym i = elementName sym j) :
    i = j := by
  rw [elementName_eq, elementName_eq] at h
  exact ofNat_inj (List.cons.inj (List.append_cancel_left h)).2

theorem elementName_ne (sym : Text) (i : Nat) : elementName sym i ≠ sym := by
  rw [elementName_eq]
  simp

theorem isIdentifier_elementName {sym : Text} (h : sym.isIdentifier = true) (i : Nat) :
    (elementName sym i).isIdentifier = true := by
  rw [elementName_eq]
  exact Codegen.isIdentifier_append h (Codegen.Name.continues_indexed i)

theorem mem_elementSymbols {sym s : Text} {i : Nat} {es : List Text} :
    s ∈ elementSymbols sym i es ↔ ∃ j < es.length, s = elementName sym (i + j) := by
  simp [elementSymbols_eq, eq_comm]

theorem nodup_elementSymbols (sym : Text) (es : List Text) : (elementSymbols sym 0 es).Nodup := by
  rw [elementSymbols_eq]
  refine List.Nodup.map (fun i j h => ?_) List.nodup_range
  have hij := elementName_inj h
  omega

/-! ## What a declaration comes to -/

/-- The array `sym` breaks off at element `k`: its own name is free and so are those of the elements in
front, but the name of this element is taken. -/
structure BreaksOff (a : Artifact) (sym : Text) (elements : List Text) (k : Nat) : Prop where
  identifier : sym.isIdentifier = true
  new : sym ∉ a.symbolNames
  bound : k < elements.length
  before : ∀ j < k, elementName sym j ∉ a.symbolNames
  taken : elementName sym k ∈ a.symbolNames

/-- An artifact with an array's symbol and elements, and without its table of pointers. -/
def withoutTable (a : Artifact) (sym : Text) (elements : List Text) : Artifact :=
  extend a (elementLines sym 0 elements) [] []
    ((sym :: elementSymbols sym 0 elements).map (·, .rodata))

theorem symbolNames_withoutTable (a : Artifact) (sym : Text) (elements : List Text) :
    (withoutTable a sym elements).symbolNames
      = a.symbolNames ++ sym :: elementSymbols sym 0 elements := by
  rw [withoutTable, symbolNames_extend, List.map_map]
  congr 1
  exact List.map_id _

theorem declare_taken {a : Artifact} {sym : Text} (hid : sym.isIdentifier = true)
    (htaken : sym ∈ a.symbolNames) (s : Section) :
    ∃ home, a.declare sym s = .error (.alreadyDeclared sym home) := by
  cases hd : a.declare sym s with
  | ok b => exact absurd htaken (fresh_of_declare hd).2
  | error fault =>
    unfold Artifact.declare at hd
    rw [hid] at hd
    cases hs : a.sectionOf? sym with
    | none => simp [hs] at hd
    | some home => exact ⟨home, by simpa [hs] using hd.symm⟩

/-- The elements that are declared before one is refused. -/
theorem declareElements_refused {a b : Artifact} {sym : Text} {fault : DeclareFault} {i : Nat}
    {es : List Text} (hid : sym.isIdentifier = true)
    (h : a.declareElements sym i es = (b, some fault)) :
    ∃ k home, k < es.length ∧ (∀ j < k, elementName sym (i + j) ∉ a.symbolNames) ∧
      elementName sym (i + k) ∈ a.symbolNames ∧
      fault = .alreadyDeclared (elementName sym (i + k)) home ∧
      b = extend a (elementLines sym i (es.take k)) [] []
        ((elementSymbols sym i (es.take k)).map (·, .rodata)) := by
  induction es generalizing a i with
  | nil => simp [declareElements] at h
  | cons e es ih =>
    have hid' := isIdentifier_elementName hid i
    by_cases htaken : elementName sym i ∈ a.symbolNames
    · obtain ⟨home, hd⟩ := declare_taken hid' htaken .rodata
      simp only [declareElements, declareCString, declareBytes, hd, Prod.mk.injEq,
        Option.some.injEq] at h
      obtain ⟨rfl, rfl⟩ := h
      refine ⟨0, home, Nat.zero_lt_succ _, fun j hj => absurd hj (Nat.not_lt_zero j), htaken, rfl, ?_⟩
      simp [elementLines, elementSymbols, extend_nil]
    · rw [declareElements, declareCString, declareBytes_ok hid' htaken] at h
      obtain ⟨k, home, hk, hbefore, hmem, hfault, hb⟩ := ih h
      have hnames : (extend a [.bytes (elementName sym i) (e ++ [0])] [] []
          [(elementName sym i, .rodata)]).symbolNames = a.symbolNames ++ [elementName sym i] :=
        symbolNames_extend ..
      have hshift (j : Nat) : i + 1 + j = i + (j + 1) := by omega
      rw [hnames, hshift] at hmem
      rw [hshift] at hfault
      refine ⟨k + 1, home, Nat.succ_lt_succ hk, ?_, ?_, hfault, ?_⟩
      · intro j hj
        cases j with
        | zero => exact htaken
        | succ j =>
          intro hm
          refine hbefore j (Nat.lt_of_succ_lt_succ hj) ?_
          rw [hnames, hshift]
          exact List.mem_append_left _ hm
      · -- the name is not that of the element just declared
        rcases List.mem_append.1 hmem with hm | hm
        · exact hm
        · have hik := elementName_inj (List.mem_singleton.1 hm)
          omega
      · rw [hb, extend_extend]
        rfl

/-- What a declaration leaves, and why it was refused if it was. -/
inductive Applied (a : Artifact) : Declaration → Artifact → Option DeclareFault → Prop
  | accepted {d : Declaration} (valid : d.Valid) (new : (a.symbolNames ++ d.symbols).Nodup) :
    Applied a d (d.into a) none
  | refused {d : Declaration} {fault : DeclareFault}
    (whole : ∀ sym elements k, d = .array sym elements → ¬ BreaksOff a sym elements k) :
    Applied a d a (some fault)
  | brokenOff {sym : Text} {elements : List Text} {k : Nat} {home : Section}
    (h : BreaksOff a sym elements k) :
    Applied a (.array sym elements) (withoutTable a sym (elements.take k))
      (some (.alreadyDeclared (elementName sym k) home))

theorem declareBytes_refused {a b : Artifact} {sym data : Text} {fault : DeclareFault}
    (h : a.declareBytes sym data = (b, some fault)) : b = a := by
  cases hd : a.declare sym .rodata with
  | error f =>
    simp only [declareBytes, hd, Prod.mk.injEq] at h
    exact h.1.symm
  | ok c => simp [declareBytes, hd] at h

theorem reserve_refused {a b : Artifact} {sym : Text} {size : Int} {fault : DeclareFault}
    (h : a.reserve sym size = (b, some fault)) : b = a := by
  by_cases hs : size ≤ 0
  · rw [reserve, if_pos hs, Prod.mk.injEq] at h
    exact h.1.symm
  · rw [reserve, if_neg hs] at h
    cases hd : a.declare sym .bss with
    | error f =>
      simp only [hd, Prod.mk.injEq] at h
      exact h.1.symm
    | ok c => simp [hd] at h

theorem declareArray_refused {a b : Artifact} {sym : Text} {elements : List Text}
    {fault : DeclareFault} (h : a.declareArray sym elements = (b, some fault)) :
    Applied a (.array sym elements) b (some fault) := by
  cases hd : a.declare sym .rodata with
  | error f =>
    simp only [declareArray, hd, Prod.mk.injEq, Option.some.injEq] at h
    obtain ⟨rfl, rfl⟩ := h
    refine .refused fun sym' elements' k he hb => ?_
    cases he
    rw [declare_ok hb.identifier hb.new] at hd
    cases hd
  | ok c =>
    obtain ⟨hid, hnew, rfl⟩ := declare_eq_iff.1 hd
    cases hes : (extend a [] [] [] [(sym, .rodata)]).declareElements sym 0 elements with
    | mk c f =>
      cases f with
      | none => simp [declareArray, hd, hes] at h
      | some f =>
        simp only [declareArray, hd, hes, Prod.mk.injEq, Option.some.injEq] at h
        obtain ⟨rfl, rfl⟩ := h
        obtain ⟨k, home, hk, hbefore, hmem, rfl, rfl⟩ := declareElements_refused hid hes
        have hnames : (extend a [] [] [] [(sym, .rodata)]).symbolNames = a.symbolNames ++ [sym] :=
          symbolNames_extend ..
        simp only [hnames, Nat.zero_add, List.mem_append, List.mem_singleton, not_or] at hbefore hmem
        have hbreaks : BreaksOff a sym elements k :=
          ⟨hid, hnew, hk, fun j hj => (hbefore j hj).1, hmem.resolve_right (elementName_ne sym k)⟩
        rw [extend_extend, Nat.zero_add]
        exact .brokenOff hbreaks

/-- **What a declaration comes to**: it is accepted, or refused as a whole, or breaks off. -/
theorem applied {a : Artifact} (ha : a.symbolNames.Nodup) (d : Declaration) :
    Applied a d (d.apply a).1 (d.apply a).2 := by
  cases hd : d.apply a with
  | mk b fault =>
    cases fault with
    | none =>
      obtain ⟨hvalid, hnew, rfl⟩ := (Declaration.apply_eq_iff ha).1 hd
      exact .accepted hvalid hnew
    | some fault =>
      cases d with
      | string sym data | cstring sym data =>
        cases declareBytes_refused hd
        exact .refused fun _ _ _ he => by cases he
      | buffer sym size =>
        cases reserve_refused hd
        exact .refused fun _ _ _ he => by cases he
      | array sym elements => exact declareArray_refused hd

/-! ## Sequences of edits -/

/-- Makes an edit, whether its declaration is refused or not. -/
def Edit.apply (a : Artifact) : Edit → Artifact
  | .declare d => (d.apply a).1
  | .write l => a.line l

/-- The artifact that edits come to, whichever of their declarations are refused. -/
def edited (es : List Edit) : Artifact := es.foldl Edit.apply .empty

theorem edited_snoc (es : List Edit) (e : Edit) : edited (es ++ [e]) = e.apply (edited es) := by
  rw [edited, List.foldl_append]
  rfl

/-- A symbol of an array that broke off. -/
def Unfinished (es : List Edit) (s : Text) : Prop :=
  ∃ before after elements k, es = before ++ .declare (.array s elements) :: after ∧
    BreaksOff (edited before) s elements k

theorem unfinished_snoc {es : List Edit} {e : Edit} {s : Text} : Unfinished (es ++ [e]) s ↔
    Unfinished es s ∨ ∃ elements k, e = .declare (.array s elements) ∧
      BreaksOff (edited es) s elements k := by
  constructor
  · rintro ⟨before, after, elements, k, he, hb⟩
    rcases List.eq_nil_or_concat after with rfl | ⟨after, e', rfl⟩
    · obtain ⟨rfl, hlast⟩ := List.append_inj' he rfl
      exact .inr ⟨elements, k, List.singleton_inj.1 hlast, hb⟩
    · rw [List.concat_eq_append, ← List.cons_append, ← List.append_assoc] at he
      obtain ⟨rfl, -⟩ := List.append_inj' he rfl
      exact .inl ⟨before, after, elements, k, rfl, hb⟩
  · rintro (⟨before, after, elements, k, rfl, hb⟩ | ⟨elements, k, rfl, hb⟩)
    · exact ⟨before, after ++ [e], elements, k, by simp, hb⟩
    · exact ⟨es, [], elements, k, rfl, hb⟩

/-- The symbols of an artifact are different identifiers, and all have data but `bare`. -/
structure Orderly (a : Artifact) (bare : List Text) : Prop where
  once : a.symbolNames.Nodup
  identifiers : ∀ s ∈ a.symbolNames, s.isIdentifier = true
  data : a.symbolNames.Perm (a.dataSymbols ++ bare)
  targets : ∀ l ∈ a.rodata.toList, l.targets ⊆ a.symbolNames

theorem dataSymbols_extend (a : Artifact) (r : List DataLine) (b : List Reservation) (c : List Line)
    (s : List (Text × Section)) : (extend a r b c s).dataSymbols.Perm
      (a.dataSymbols ++ (r.map DataLine.sym ++ b.map Reservation.sym)) := by
  have hrodata : (a.rodata ++ r).toList = a.rodata.toList ++ r := by simp
  have hbss : (a.bss ++ b).toList = a.bss.toList ++ b := by simp
  simp only [dataSymbols, extend, hrodata, hbss, List.map_append, List.append_assoc]
  refine List.Perm.append_left _ ?_
  rw [← List.append_assoc, ← List.append_assoc]
  exact List.perm_append_comm.append_right _

section
variable {a : Artifact} {bare : List Text} (h : Orderly a bare)
include h

/-- Lines and symbols that belong together keep an artifact orderly. -/
theorem Orderly.extend {r : List DataLine} {b : List Reservation} {c : List Line}
    {s : List (Text × Section)} {bare' : List Text}
    (honce : (a.symbolNames ++ s.map (·.1)).Nodup)
    (hids : ∀ n ∈ s.map (·.1), n.isIdentifier = true)
    (hdata : (s.map (·.1)).Perm ((r.map DataLine.sym ++ b.map Reservation.sym) ++ bare'))
    (htargets : ∀ l ∈ r, l.targets ⊆ s.map (·.1)) :
    Orderly (Assembly.extend a r b c s) (bare ++ bare') := by
  have hnames := symbolNames_extend a r b c s
  refine ⟨?_, ?_, ?_, ?_⟩
  · rw [hnames]
    exact honce
  · rw [hnames]
    exact List.forall_mem_append.2 ⟨h.identifiers, hids⟩
  · have hnew := (dataSymbols_extend a r b c s).append_right (bare ++ bare')
    rw [hnames]
    refine ((h.data.append hdata).trans ?_).trans hnew.symm
    rw [List.append_assoc, List.append_assoc a.dataSymbols]
    exact List.Perm.append_left _ (List.perm_append_comm_assoc ..)
  · intro l hl
    rw [hnames]
    have hl : l ∈ a.rodata.toList ++ r := by simpa [Assembly.extend] using hl
    rcases List.mem_append.1 hl with hl | hl
    · exact List.Subset.trans (h.targets l hl) (List.subset_append_left ..)
    · exact List.Subset.trans (htargets l hl) (List.subset_append_right ..)

theorem Orderly.line (l : Line) : Orderly (a.line l) bare := by
  have hline : a.line l = Assembly.extend a [] [] [l] [] := by simp [Artifact.line, Assembly.extend]
  rw [hline, ← List.append_nil bare]
  exact h.extend (by simpa using h.once) (by simp) (by simp) (by simp)

theorem Orderly.into {d : Declaration} (hvalid : d.Valid)
    (hnew : (a.symbolNames ++ d.symbols).Nodup) : Orderly (d.into a) bare := by
  rw [Declaration.into, ← List.append_nil bare]
  refine h.extend ?_ ?_ ?_ ?_
  · rw [d.names_entries]
    exact hnew
  · rw [d.names_entries]
    exact hvalid.1
  · rw [d.names_entries, List.append_nil]
    exact d.syms_perm.symm
  · rw [d.names_entries]
    exact d.targets_subset

/-- An array that breaks off leaves its symbol without data. -/
theorem Orderly.withoutTable {sym : Text} {elements : List Text} {k : Nat}
    (hb : BreaksOff a sym elements k) :
    Orderly (withoutTable a sym (elements.take k)) (bare ++ [sym]) := by
  have hfree : ∀ s ∈ elementSymbols sym 0 (elements.take k), s ∉ a.symbolNames := by
    intro s hs
    obtain ⟨j, hj, rfl⟩ := mem_elementSymbols.1 hs
    rw [Nat.zero_add]
    exact hb.before j (Nat.lt_of_lt_of_le hj (List.length_take_le ..))
  have hown : sym ∉ elementSymbols sym 0 (elements.take k) := by
    intro hs
    obtain ⟨j, -, he⟩ := mem_elementSymbols.1 hs
    exact elementName_ne sym _ he.symm
  have hnames : ((sym :: elementSymbols sym 0 (elements.take k)).map
      (·, Section.rodata)).map (·.1) = sym :: elementSymbols sym 0 (elements.take k) :=
    (List.map_map ..).trans (List.map_id _)
  refine h.extend ?_ ?_ ?_ ?_
  · rw [hnames]
    refine List.nodup_append.2 ⟨h.once, List.nodup_cons.2 ⟨hown, nodup_elementSymbols ..⟩, ?_⟩
    rintro s hs t ht rfl
    rcases List.mem_cons.1 ht with rfl | ht
    · exact hb.new hs
    · exact hfree s ht hs
  · rw [hnames]
    refine List.forall_mem_cons.2 ⟨hb.identifier, fun s hs => ?_⟩
    obtain ⟨j, -, rfl⟩ := mem_elementSymbols.1 hs
    exact isIdentifier_elementName hb.identifier _
  · rw [hnames, syms_elementLines, List.map_nil, List.append_nil]
    exact (List.perm_append_singleton ..).symm
  · intro l hl
    have hl : l.targets = [] := targets_elementLines sym 0 _ l hl
    simp [hl]

end

/-- **What edits leave is orderly**, and the symbols without data are those of the arrays that broke
off. -/
theorem orderly_edited (es : List Edit) :
    ∃ bare, Orderly (edited es) bare ∧ ∀ s, s ∈ bare ↔ Unfinished es s := by
  induction es using List.reverseRecOn with
  | nil =>
    refine ⟨[], ⟨List.nodup_nil, by simp [edited, symbolNames, Artifact.empty],
      List.Perm.refl _, by simp [edited, Artifact.empty]⟩, fun s => ?_⟩
    simp [Unfinished]
  | append_singleton es e ih =>
    obtain ⟨bare, horderly, hbare⟩ := ih
    rw [edited_snoc]
    simp only [unfinished_snoc]
    cases e with
    | write l => exact ⟨bare, horderly.line l, fun s => by simp [hbare]⟩
    | declare d =>
      have happ := applied horderly.once d
      rw [Edit.apply]
      -- an artifact that takes the declaration as a whole, or not at all, has no new bare symbol
      have hwhole (hno : ∀ sym elements k, d = .array sym elements →
          ¬ BreaksOff (edited es) sym elements k) (s : Text) : s ∈ bare ↔ Unfinished es s ∨
            ∃ elements k, Edit.declare d = .declare (.array s elements) ∧
              BreaksOff (edited es) s elements k := by
        rw [hbare, iff_self_or]
        rintro ⟨elements, k, he, hb⟩
        exact absurd hb (hno s elements k (Edit.declare.inj he))
      generalize (d.apply (edited es)).1 = b at happ
      generalize (d.apply (edited es)).2 = fault at happ
      cases happ with
      | accepted hvalid hnew =>
        refine ⟨bare, horderly.into hvalid hnew, hwhole ?_⟩
        rintro sym elements k rfl hb
        refine (List.nodup_append.1 hnew).2.2 _ hb.taken _ ?_ rfl
        exact List.mem_cons_of_mem _ (mem_elementSymbols.2 ⟨k, hb.bound, by rw [Nat.zero_add]⟩)
      | refused hno => exact ⟨bare, horderly, hwhole hno⟩
      | @brokenOff sym elements k home hb =>
        refine ⟨bare ++ [sym], horderly.withoutTable hb, fun s => ?_⟩
        rw [List.mem_append, hbare, List.mem_singleton]
        constructor
        · rintro (hs | rfl)
          · exact .inl hs
          · exact .inr ⟨elements, k, rfl, hb⟩
        · rintro (hs | ⟨elements', k', he, -⟩)
          · exact .inl hs
          · cases he
            exact .inr rfl

/-! ## Lines of symbols -/

namespace Orderly

variable {a : Artifact} {bare : List Text} (h : Orderly a bare)
include h

theorem isLabel_symbol {s : Text} (hs : s ∈ a.dataSymbols) : isLabel s = true :=
  isLabel_of_isIdentifier (h.identifiers s (h.data.symm.subset (List.mem_append_left _ hs)))

theorem legible : ∀ l ∈ a.rodata.toList, l.Legible := fun l hl =>
  ⟨h.isLabel_symbol (List.mem_append_left _ (List.mem_map_of_mem hl)), fun t ht =>
    isLabel_of_isIdentifier (h.identifiers t (h.targets l hl ht))⟩

theorem isLabel_bss : ∀ r ∈ a.bss.toList, isLabel r.sym = true := fun _ hr =>
  h.isLabel_symbol (List.mem_append_right _ (List.mem_map_of_mem hr))

theorem textLines_render : textLines a.render =
    a.dataTexts ++ ("section .text" : Text) :: textLines (a.code.toList.flatMap Line.render) :=
  textLines_render_data (fun l hl => DataLine.oneLine (h.legible l hl)) fun r hr =>
    Reservation.oneLine (h.isLabel_bss r hr)

theorem definedAt_iff_dataReading {s : Text} {j : Nat} (hj : j < a.dataTexts.length) :
    DefinedAt a.render s j ↔ ∃ p, a.dataReading[j]? = some p ∧ s ∈ p.labels :=
  definedAt_iff_of_append h.textLines_render (readAs_dataTexts h.legible h.isLabel_bss) hj

theorem dataSymbols_nodup : (a.dataSymbols ++ bare).Nodup := h.data.nodup_iff.1 h.once

/-- A symbol with data has one line in front of the code. -/
theorem definedAt {s : Text} (hs : s ∈ a.dataSymbols) :
    ∃ i < a.dataTexts.length, ∀ j < a.dataTexts.length, DefinedAt a.render s j ↔ j = i := by
  have hnodup : (a.dataReading.flatMap (·.labels)).Nodup := by
    rw [labels_dataReading]
    exact (List.nodup_append.1 h.dataSymbols_nodup).1
  rw [← labels_dataReading] at hs
  obtain ⟨p, hp, hsp⟩ := List.mem_flatMap.1 hs
  obtain ⟨i, hi, rfl⟩ := List.getElem_of_mem hp
  have hget : a.dataReading[i]? = some a.dataReading[i] := List.getElem?_eq_getElem hi
  refine ⟨i, by simpa [dataReading, dataTexts] using hi, fun j hj => ?_⟩
  rw [h.definedAt_iff_dataReading hj]
  constructor
  · rintro ⟨q, hq, hsq⟩
    exact index_unique hnodup hq hget hsq hsp
  · rintro rfl
    exact ⟨_, hget, hsp⟩

/-- A symbol without data has none. -/
theorem not_definedAt {s : Text} (hs : s ∈ bare) {j : Nat} (hj : j < a.dataTexts.length) :
    ¬ DefinedAt a.render s j := by
  rw [h.definedAt_iff_dataReading hj]
  rintro ⟨p, hp, hsp⟩
  have hdata : s ∈ a.dataSymbols := by
    rw [← labels_dataReading]
    exact List.mem_flatMap.2 ⟨p, List.mem_of_getElem? hp, hsp⟩
  exact (List.nodup_append.1 h.dataSymbols_nodup).2.2 s hdata s hs rfl

end Orderly

/-- **Refused declarations.** Whatever edits came before, a declaration that is refused leaves the
artifact as it was, unless it is an array that breaks off at one of its elements; then the array's symbol
and the elements in front of this one have been added. In the text, every symbol of an array that broke
off has no line in front of the code, and every other declared symbol has exactly one. -/
theorem refused_declarations_keep_or_break_off (es : List Edit) :
    (∀ (d : Declaration) b fault, d.apply (edited es) = (b, some fault) →
      (b = edited es ∧ ∀ sym elements k, d = .array sym elements →
        ¬ BreaksOff (edited es) sym elements k) ∨
      ∃ sym elements k home, d = .array sym elements ∧ BreaksOff (edited es) sym elements k ∧
        fault = .alreadyDeclared (elementName sym k) home ∧
        b = withoutTable (edited es) sym (elements.take k) ∧
        b.symbolNames
          = (edited es).symbolNames ++ sym :: elementSymbols sym 0 (elements.take k)) ∧
    ∃ before after,
      textLines (edited es).render = before ++ ("section .text" : Text) :: after ∧
        ("section .text" : Text) ∉ before ∧
          ∀ s ∈ (edited es).symbolNames,
            (¬ Unfinished es s → ∃ i < before.length, ∀ j < before.length,
              DefinedAt (edited es).render s j ↔ j = i) ∧
            (Unfinished es s → ∀ j < before.length, ¬ DefinedAt (edited es).render s j) := by
  obtain ⟨bare, horderly, hbare⟩ := orderly_edited es
  refine ⟨fun d b fault hd => ?_, (edited es).dataTexts, _, horderly.textLines_render,
    codeHeader_notMem _, fun s hs => ⟨fun hfinished => ?_, fun hunfinished j hj => ?_⟩⟩
  · have happ := applied horderly.once d
    rw [hd] at happ
    generalize hf : some fault = f at happ
    cases happ with
    | accepted => cases hf
    | refused hno => exact .inl ⟨rfl, hno⟩
    | @brokenOff sym elements k home hb =>
      exact .inr ⟨sym, elements, k, home, rfl, hb, Option.some.inj hf, rfl,
        symbolNames_withoutTable ..⟩
  · apply horderly.definedAt
    rcases List.mem_append.1 (horderly.data.subset hs) with hdata | hopen
    · exact hdata
    · exact absurd ((hbare s).1 hopen) hfinished
  · exact horderly.not_definedAt ((hbare s).2 hunfinished) hj

/-- An array whose second element has the name of a string declared before. -/
def unfinishedEdits : List Edit :=
  [.declare (.string "a_1" "z"), .declare (.array "a" ["x", "y"])]

theorem refused_declarations_keep_or_break_off_unfinished :
    Unfinished unfinishedEdits "a" ∧ ¬ Unfinished unfinishedEdits "a_0" ∧
      (edited unfinishedEdits).symbolNames = ["a_1", "a", "a_0"] ∧
      (Declaration.array "a" ["w"]).apply (edited unfinishedEdits)
        = (edited unfinishedEdits, some (.alreadyDeclared "a" .rodata)) ∧
      (∀ k, ¬ BreaksOff (edited unfinishedEdits) "a" ["w"] k) ∧
      ∃ before after,
        textLines (edited unfinishedEdits).render = before ++ ("section .text" : Text) :: after ∧
          (∀ j < before.length, ¬ DefinedAt (edited unfinishedEdits).render "a" j) ∧
          ∃ i < before.length, ∀ j < before.length,
            DefinedAt (edited unfinishedEdits).render "a_0" j ↔ j = i := by
  have hbreaks : BreaksOff (edited [.declare (.string "a_1" "z")]) "a" ["x", "y"] 1 :=
    ⟨by decide, by decide, by decide, by decide, by decide⟩
  have ha : Unfinished unfinishedEdits "a" :=
    ⟨[.declare (.string "a_1" "z")], [], ["x", "y"], 1, rfl, hbreaks⟩
  have ha0 : ¬ Unfinished unfinishedEdits "a_0" := by
    rintro ⟨before, after, elements, k, he, -⟩
    have hmem : Edit.declare (.array "a_0" elements) ∈ unfinishedEdits := by
      rw [he]
      simp
    have hne : ("a_0" : Text) ≠ "a" := by decide
    simp [unfinishedEdits, hne] at hmem
  have hnames : (edited unfinishedEdits).symbolNames = ["a_1", "a", "a_0"] := by decide +kernel
  obtain ⟨hrefused, before, after, hlines, -, hdefined⟩ :=
    refused_declarations_keep_or_break_off unfinishedEdits
  have hagain : (Declaration.array "a" ["w"]).apply (edited unfinishedEdits)
      = (edited unfinishedEdits, some (.alreadyDeclared "a" .rodata)) := rfl
  refine ⟨ha, ha0, hnames, hagain, ?_, before, after, hlines, (hdefined "a" (by simp [hnames])).2 ha,
    (hdefined "a_0" (by simp [hnames])).1 ha0⟩
  rcases hrefused _ _ _ hagain with ⟨-, hno⟩ | ⟨sym, elements, k, home, he, hb, -⟩
  · exact fun k => hno _ _ k rfl
  · cases he
    exact absurd (by simp [hnames]) hb.new

/-- A declaration that is refused changes the text and the symbols. -/
theorem refused_array_changes_text :
    (Declaration.array "a" ["x", "y"]).apply (edited [.declare (.string "a_1" "z")])
      = (edited unfinishedEdits, some (.alreadyDeclared "a_1" .rodata)) ∧
    (edited [.declare (.string "a_1" "z")]).symbolNames = ["a_1"] ∧
    (edited unfinishedEdits).symbolNames = ["a_1", "a", "a_0"] ∧
    (edited [.declare (.string "a_1" "z")]).render
      = "section .rodata\na_1: db \"z\"\nsection .bss\nsection .text\n" ∧
    (edited unfinishedEdits).render
      = "section .rodata\na_1: db \"z\"\na_0: db \"x\", 0\nsection .bss\nsection .text\n" ∧
    (edited [.declare (.string "a_1" "z")]).size = 55 ∧ (edited unfinishedEdits).size = 70 := by
  refine ⟨rfl, ?_, ?_, ?_, ?_, ?_, ?_⟩ <;> decide +kernel

end StackLang.Assembly
