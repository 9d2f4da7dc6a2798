import Mathlib.Data.List.Nodup
import StackLang.Proofs.ArtifactReading

/-!
# What declarations add

A declaration puts a line under each of its symbols into a data section. It is accepted when the symbols
are identifiers that have not been declared before; nothing else of the artifact matters to it, and it
leaves the code alone.

- `extend`: an artifact with more lines and symbols.
- `Declaration.apply_eq_iff`: which declarations are accepted, and what they leave.
- `run_eq_iff`: a sequence of declarations and lines of code comes to the same as all declarations in
  their order and all lines in theirs.
-/

set_option autoImplicit false

namespace StackLang.Assembly

/-! ## Adding lines -/

/-- An artifact with more lines in its sections, and more symbols. -/
def extend (a : Artifact) (rodata : List DataLine) (bss : List Reservation) (code : List Line)
    (symbols : List (Text × Section)) : Artifact :=
  ⟨a.rodata ++ rodata, a.bss ++ bss, a.code ++ code, a.symbols ++ symbols⟩

theorem append_append_list {α : Type} (xs : Array α) (l l' : List α) :
    xs ++ l ++ l' = xs ++ (l ++ l') := by
  apply Array.toList_inj.1
  simp

theorem extend_extend (a : Artifact) (r r' : List DataLine) (b b' : List Reservation)
    (c c' : List Line) (s s' : List (Text × Section)) :
    extend (extend a r b c s) r' b' c' s' = extend a (r ++ r') (b ++ b') (c ++ c') (s ++ s') := by
  simp only [extend, append_append_list]

theorem extend_nil (a : Artifact) : extend a [] [] [] [] = a := by
  simp [extend]

theorem symbolNames_extend (a : Artifact) (r : List DataLine) (b : List Reservation)
    (c : List Line) (s : List (Text × Section)) :
    (extend a r b c s).symbolNames = a.symbolNames ++ s.map (·.1) := by
  simp [extend, Artifact.symbolNames]

section
variable {a : Artifact} {sym : Text} (hid : sym.isIdentifier = true) (hnew : sym ∉ a.symbolNames)
include hid hnew

theorem declare_ok (s : Section) : a.declare sym s = .ok (extend a [] [] [] [(sym, s)]) := by
  have hnone : a.sectionOf? sym = none := by
    rw [Artifact.sectionOf?, Option.map_eq_none_iff, Array.find?_eq_none]
    intro x hx hk
    refine hnew (List.mem_map.2 ⟨x, by simpa using hx, ?_⟩)
    simpa using hk
  simp [Artifact.declare, hid, hnone, extend]

theorem declareBytes_ok (data : Text) :
    a.declareBytes sym data = (extend a [.bytes sym data] [] [] [(sym, .rodata)], none) := by
  rw [Artifact.declareBytes, declare_ok hid hnew]
  simp [extend]

theorem reserve_ok {size : Int} (hs : 0 < size) :
    a.reserve sym size = (extend a [] [⟨sym, size⟩] [] [(sym, .bss)], none) := by
  rw [Artifact.reserve, if_neg (by omega), declare_ok hid hnew]
  simp [extend]

end

/-- The lines of an array's elements, the first of which is number `i`. -/
def elementLines (sym : Text) (i : Nat) : List Text → List DataLine
  | [] => []
  | e :: es => .bytes (Artifact.elementName sym i) (e ++ [0]) :: elementLines sym (i + 1) es

/-- The symbols of an array's elements. -/
def elementSymbols (sym : Text) (i : Nat) : List Text → List Text
  | [] => []
  | _ :: es => Artifact.elementName sym i :: elementSymbols sym (i + 1) es

theorem elementSymbols_eq (sym : Text) (i : Nat) (es : List Text) :
    elementSymbols sym i es = (List.range es.length).map fun j => Artifact.elementName sym (i + j) := by
  induction es generalizing i with
  | nil => rfl
  | cons e es ih =>
    rw [elementSymbols, ih, List.length_cons, List.range_succ_eq_map, List.map_cons, List.map_map]
    congr 1
    refine List.map_congr_left fun j _ => ?_
    simp only [Function.comp_apply, Nat.succ_eq_add_one]
    congr 1
    omega

theorem syms_elementLines (sym : Text) (i : Nat) (es : List Text) :
    (elementLines sym i es).map DataLine.sym = elementSymbols sym i es := by
  induction es generalizing i with
  | nil => rfl
  | cons e es ih => simp [elementLines, elementSymbols, DataLine.sym, ih]

theorem declareElements_ok {a : Artifact} {sym : Text} {i : Nat} {es : List Text}
    (hid : ∀ s ∈ elementSymbols sym i es, s.isIdentifier = true)
    (hnew : (a.symbolNames ++ elementSymbols sym i es).Nodup) :
    a.declareElements sym i es = (extend a (elementLines sym i es) [] []
      ((elementSymbols sym i es).map (·, .rodata)), none) := by
  induction es generalizing a i with
  | nil => simp [Artifact.declareElements, elementLines, elementSymbols, extend_nil]
  | cons e es ih =>
    obtain ⟨hid, hids⟩ := List.forall_mem_cons.1 hid
    have hfresh : Artifact.elementName sym i ∉ a.symbolNames := by
      intro hm
      exact (List.nodup_append.1 hnew).2.2 _ hm _ (by simp [elementSymbols]) rfl
    rw [Artifact.declareElements, Artifact.declareCString, declareBytes_ok hid hfresh]
    dsimp only
    rw [ih hids, extend_extend]
    · rfl
    · rw [symbolNames_extend]
      simpa [elementSymbols] using hnew

/-! ## Accepted declarations -/

section
variable {a b : Artifact} {sym : Text}

theorem fresh_of_declare {s : Section} (h : a.declare sym s = .ok b) :
    sym.isIdentifier = true ∧ sym ∉ a.symbolNames := by
  unfold Artifact.declare at h
  split at h
  · cases h
  · rename_i hid
    split at h
    · cases h
    · rename_i hnone
      refine ⟨by simpa using hid, fun hm => ?_⟩
      obtain ⟨x, hx, rfl⟩ := List.mem_map.1 hm
      rw [Artifact.sectionOf?, Option.map_eq_none_iff, Array.find?_eq_none] at hnone
      exact hnone x (by simpa using hx) (by simp)

theorem declare_eq_iff {s : Section} : a.declare sym s = .ok b ↔
    sym.isIdentifier = true ∧ sym ∉ a.symbolNames ∧ b = extend a [] [] [] [(sym, s)] := by
  constructor
  · intro h
    obtain ⟨hid, hnew⟩ := fresh_of_declare h
    rw [declare_ok hid hnew] at h
    exact ⟨hid, hnew, (Except.ok.inj h).symm⟩
  · rintro ⟨hid, hnew, rfl⟩
    exact declare_ok hid hnew s

theorem declareBytes_eq_iff {data : Text} : a.declareBytes sym data = (b, none) ↔
    sym.isIdentifier = true ∧ sym ∉ a.symbolNames ∧
      b = extend a [.bytes sym data] [] [] [(sym, .rodata)] := by
  constructor
  · intro h
    cases hd : a.declare sym .rodata with
    | error fault => simp [Artifact.declareBytes, hd] at h
    | ok c =>
      obtain ⟨hid, hnew⟩ := fresh_of_declare hd
      rw [declareBytes_ok hid hnew] at h
      cases h
      exact ⟨hid, hnew, rfl⟩
  · rintro ⟨hid, hnew, rfl⟩
    exact declareBytes_ok hid hnew data

theorem reserve_eq_iff {size : Int} : a.reserve sym size = (b, none) ↔
    0 < size ∧ sym.isIdentifier = true ∧ sym ∉ a.symbolNames ∧
      b = extend a [] [⟨sym, size⟩] [] [(sym, .bss)] := by
  constructor
  · intro h
    by_cases hs : size ≤ 0
    · simp [Artifact.reserve, hs] at h
    · cases hd : a.declare sym .bss with
      | error fault => simp [Artifact.reserve, hs, hd] at h
      | ok c =>
        obtain ⟨hid, hnew⟩ := fresh_of_declare hd
        rw [reserve_ok hid hnew (by omega)] at h
        cases h
        exact ⟨by omega, hid, hnew, rfl⟩
  · rintro ⟨hs, hid, hnew, rfl⟩
    exact reserve_ok hid hnew hs

theorem declareElements_eq_iff {i : Nat} {es : List Text} (ha : a.symbolNames.Nodup) :
    a.declareElements sym i es = (b, none) ↔
      (∀ s ∈ elementSymbols sym i es, s.isIdentifier = true) ∧
        (a.symbolNames ++ elementSymbols sym i es).Nodup ∧
          b = extend a (elementLines sym i es) [] []
            ((elementSymbols sym i es).map (·, .rodata)) := by
  constructor
  · intro h
    suffices hok : (∀ s ∈ elementSymbols sym i es, s.isIdentifier = true) ∧
        (a.symbolNames ++ elementSymbols sym i es).Nodup by
      rw [declareElements_ok hok.1 hok.2] at h
      cases h
      exact ⟨hok.1, hok.2, rfl⟩
    induction es generalizing a i with
    | nil => simpa [elementSymbols] using ha
    | cons e es ih =>
      cases hd : a.declareCString (Artifact.elementName sym i) e with
      | mk c fault =>
        cases fault with
        | some fault => simp [Artifact.declareElements, hd] at h
        | none =>
          simp only [Artifact.declareElements, hd] at h
          obtain ⟨hid, hnew, rfl⟩ := declareBytes_eq_iff.1 hd
          have hnames : (extend a [.bytes (Artifact.elementName sym i) (e ++ [0])] [] []
              [(Artifact.elementName sym i, .rodata)]).symbolNames
                = a.symbolNames ++ [Artifact.elementName sym i] := symbolNames_extend ..
          have hnodup : (a.symbolNames ++ [Artifact.elementName sym i]).Nodup := by
            rw [List.nodup_append_comm]
            exact List.nodup_cons.2 ⟨hnew, ha⟩
          obtain ⟨hids, hrest⟩ := ih (by rw [hnames]; exact hnodup) h
          rw [hnames, List.append_assoc] at hrest
          exact ⟨List.forall_mem_cons.2 ⟨hid, hids⟩, hrest⟩
  · rintro ⟨hids, hnew, rfl⟩
    exact declareElements_ok hids hnew

theorem declareArray_eq_iff {es : List Text} (ha : a.symbolNames.Nodup) :
    a.declareArray sym es = (b, none) ↔
      (∀ s ∈ sym :: elementSymbols sym 0 es, s.isIdentifier = true) ∧
        (a.symbolNames ++ sym :: elementSymbols sym 0 es).Nodup ∧
          b = extend a (elementLines sym 0 es ++ [.pointers sym (elementSymbols sym 0 es)]) [] []
            ((sym :: elementSymbols sym 0 es).map (·, .rodata)) := by
  have htargets : (List.range es.length).map (Artifact.elementName sym) = elementSymbols sym 0 es := by
    simp [elementSymbols_eq]
  have hnames : (extend a [] [] [] [(sym, .rodata)]).symbolNames = a.symbolNames ++ [sym] :=
    symbolNames_extend ..
  -- what is left once the symbol and the elements have been entered
  have hleft (hid : sym.isIdentifier = true) (hnew : sym ∉ a.symbolNames)
      (hids : ∀ s ∈ elementSymbols sym 0 es, s.isIdentifier = true)
      (hnodup : (a.symbolNames ++ sym :: elementSymbols sym 0 es).Nodup) :
      a.declareArray sym es
        = (extend a (elementLines sym 0 es ++ [.pointers sym (elementSymbols sym 0 es)]) [] []
            ((sym :: elementSymbols sym 0 es).map (·, .rodata)), none) := by
    rw [Artifact.declareArray, declare_ok hid hnew]
    dsimp only
    rw [declareElements_ok hids (by rw [hnames]; simpa using hnodup), htargets]
    simp [extend, ← append_append_list]
  constructor
  · intro h
    cases hd : a.declare sym .rodata with
    | error fault => simp [Artifact.declareArray, hd] at h
    | ok c =>
      obtain ⟨hid, hnew, rfl⟩ := declare_eq_iff.1 hd
      have hone : (a.symbolNames ++ [sym]).Nodup := by
        rw [List.nodup_append_comm]
        exact List.nodup_cons.2 ⟨hnew, ha⟩
      cases hes : (extend a [] [] [] [(sym, .rodata)]).declareElements sym 0 es with
      | mk c fault =>
        cases fault with
        | some fault => simp [Artifact.declareArray, hd, hes] at h
        | none =>
          obtain ⟨hids, hnodup, -⟩ := (declareElements_eq_iff (by rw [hnames]; exact hone)).1 hes
          rw [hnames, List.append_assoc] at hnodup
          rw [hleft hid hnew hids hnodup] at h
          cases h
          exact ⟨List.forall_mem_cons.2 ⟨hid, hids⟩, hnodup, rfl⟩
  · rintro ⟨hids, hnodup, rfl⟩
    obtain ⟨hid, hids⟩ := List.forall_mem_cons.1 hids
    exact hleft hid (fun hm => (List.nodup_append.1 hnodup).2.2 _ hm _ (by simp) rfl) hids hnodup

end

/-- A declaration of data. -/
inductive Declaration where
  | string (sym data : Text)
  | cstring (sym data : Text)
  | array (sym : Text) (elements : List Text)
  | buffer (sym : Text) (size : Int)
  deriving DecidableEq, Repr

namespace Declaration

/-- Declares data in an artifact. -/
def apply (a : Artifact) : Declaration → Artifact.Declared
  | string sym data => a.declareString sym data
  | cstring sym data => a.declareCString sym data
  | array sym elements => a.declareArray sym elements
  | buffer sym size => a.reserve sym size

/-- The lines of constant data that a declaration adds. -/
def rodata : Declaration → List DataLine
  | string sym data => [.bytes sym data]
  | cstring sym data => [.bytes sym (data ++ [0])]
  | array sym elements =>
    elementLines sym 0 elements ++ [.pointers sym (elementSymbols sym 0 elements)]
  | buffer _ _ => []

/-- The memory that a declaration reserves. -/
def bss : Declaration → List Reservation
  | buffer sym size => [⟨sym, size⟩]
  | _ => []

/-- The symbols that a declaration enters. -/
def symbols : Declaration → List Text
  | string sym _ | cstring sym _ | buffer sym _ => [sym]
  | array sym elements => sym :: elementSymbols sym 0 elements

/-- The symbols of a declaration with their section. -/
def entries (d : Declaration) : List (Text × Section) :=
  match d with
  | buffer _ _ => d.symbols.map (·, .bss)
  | _ => d.symbols.map (·, .rodata)

theorem names_entries (d : Declaration) : d.entries.map (·.1) = d.symbols := by
  cases d <;> exact (List.map_map ..).trans (List.map_id _)

/-- Whether a declaration may be accepted at all. -/
def Valid (d : Declaration) : Prop :=
  (∀ s ∈ d.symbols, s.isIdentifier = true) ∧ ∀ r ∈ d.bss, 0 < r.size

/-- An artifact with what a declaration adds. -/
def into (a : Artifact) (d : Declaration) : Artifact :=
  extend a d.rodata d.bss [] d.entries

theorem symbolNames_into (a : Artifact) (d : Declaration) :
    (d.into a).symbolNames = a.symbolNames ++ d.symbols := by
  rw [into, symbolNames_extend, names_entries]

/-- **The declarations that are accepted** have new symbols, which are identifiers. -/
theorem apply_eq_iff {a b : Artifact} (ha : a.symbolNames.Nodup) {d : Declaration} :
    d.apply a = (b, none) ↔
      d.Valid ∧ (a.symbolNames ++ d.symbols).Nodup ∧ b = d.into a := by
  have hone {sym : Text} : (a.symbolNames ++ [sym]).Nodup ↔ sym ∉ a.symbolNames := by
    rw [List.nodup_append_comm]
    simp [ha]
  cases d with
  | string sym data =>
    rw [apply, Artifact.declareString, declareBytes_eq_iff]
    simp [Valid, symbols, bss, hone, into, rodata, entries]
  | cstring sym data =>
    rw [apply, Artifact.declareCString, declareBytes_eq_iff]
    simp [Valid, symbols, bss, hone, into, rodata, entries]
  | buffer sym size =>
    rw [apply, reserve_eq_iff]
    simp [Valid, symbols, bss, hone, into, rodata, entries, and_assoc, and_left_comm]
  | array sym elements =>
    rw [apply, declareArray_eq_iff ha]
    simp [Valid, symbols, bss, into, rodata, entries]

end Declaration

/-! ## Declarations among code -/

/-- One operation on an artifact: data is declared, or a line of code is added. -/
inductive Edit where
  | declare (d : Declaration)
  | write (l : Line)
  deriving DecidableEq, Repr

/-- Makes all edits of a list, as long as every declaration is accepted. -/
def run (a : Artifact) : List Edit → Except DeclareFault Artifact
  | [] => .ok a
  | .declare d :: es =>
    match d.apply a with
    | (_, some fault) => .error fault
    | (a, none) => run a es
  | .write l :: es => run (a.line l) es

/-- The declarations of a list of edits. -/
def declarations : List Edit → List Declaration
  | [] => []
  | .declare d :: es => d :: declarations es
  | .write _ :: es => declarations es

/-- The lines of code of a list of edits. -/
def written : List Edit → List Line
  | [] => []
  | .declare _ :: es => written es
  | .write l :: es => l :: written es

/-- An artifact with all that declarations add, and lines of code. -/
def assembled (a : Artifact) (ds : List Declaration) (ls : List Line) : Artifact :=
  extend a (ds.flatMap Declaration.rodata) (ds.flatMap Declaration.bss) ls
    (ds.flatMap Declaration.entries)

theorem assembled_cons (a : Artifact) (d : Declaration) (ds : List Declaration) (ls : List Line) :
    assembled a (d :: ds) ls = assembled (d.into a) ds ls := by
  simp only [assembled, Declaration.into, extend_extend, List.flatMap_cons, List.nil_append]

theorem assembled_line (a : Artifact) (ds : List Declaration) (l : Line) (ls : List Line) :
    assembled a ds (l :: ls) = assembled (a.line l) ds ls := by
  have hline : a.line l = extend a [] [] [l] [] := by simp [Artifact.line, extend]
  simp only [assembled, hline, extend_extend, List.nil_append, List.singleton_append]

/-- **What a list of edits comes to** depends on its declarations and on its lines, and not on where
the ones stand among the others. -/
theorem run_eq_iff {a b : Artifact} (ha : a.symbolNames.Nodup) {es : List Edit} :
    run a es = .ok b ↔
      (∀ d ∈ declarations es, d.Valid) ∧
        (a.symbolNames ++ (declarations es).flatMap Declaration.symbols).Nodup ∧
          b = assembled a (declarations es) (written es) := by
  induction es generalizing a with
  | nil => simp [run, declarations, written, assembled, extend_nil, ha, eq_comm]
  | cons e es ih =>
    cases e with
    | declare d =>
      rw [declarations, written, List.forall_mem_cons, List.flatMap_cons, ← List.append_assoc,
        assembled_cons, ← d.symbolNames_into]
      constructor
      · intro h
        cases hd : d.apply a with
        | mk c fault =>
          cases fault with
          | some fault => simp [run, hd] at h
          | none =>
            obtain ⟨hv, hn, rfl⟩ := (Declaration.apply_eq_iff ha).1 hd
            simp only [run, hd] at h
            obtain ⟨hvs, hns, hb⟩ := (ih (by rw [d.symbolNames_into]; exact hn)).1 h
            exact ⟨⟨hv, hvs⟩, hns, hb⟩
      · rintro ⟨⟨hv, hvs⟩, hns, hb⟩
        have hn : (d.into a).symbolNames.Nodup := (List.nodup_append.1 hns).1
        have hd : d.apply a = (d.into a, none) :=
          (Declaration.apply_eq_iff ha).2 ⟨hv, by rw [← d.symbolNames_into]; exact hn, rfl⟩
        simp only [run, hd]
        exact (ih hn).2 ⟨hvs, hns, hb⟩
    | write l =>
      rw [run, declarations, written, assembled_line]
      exact ih ha

end StackLang.Assembly
