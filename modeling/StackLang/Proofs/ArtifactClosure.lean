import StackLang.Proofs.ArtifactReading
import StackLang.Proofs.VerifyMeaning

/-!
# Closed artifacts

What the check of an artifact's text comes to, told from the artifact alone: no full name is defined
twice, and every name that an instruction or a table of pointers uses is defined. That data is
declared before the code that uses it needs no condition, since the data sections come first.

- `Artifact.names`, `Artifact.uses`: what an artifact defines and uses, by full name.
- `Artifact.Closed`: every use has a definition, and no definition has a double.
- `Artifact.verify_render_iff`: the artifacts whose text is accepted.
-/

set_option autoImplicit false

namespace StackLang.Assembly

open Text Verify Verifier

/-! ## Definitions and uses of parts -/

/-- The full names of labels, in the scope of what precedes them. -/
def qualified (scope : Text) : List Text → List Text
  | [] => []
  | l :: ls => qualify l scope :: qualified (scopeAfter scope l) ls

theorem qualified_append (scope : Text) (ls ms : List Text) :
    qualified scope (ls ++ ms) = qualified scope ls ++ qualified (ls.foldl scopeAfter scope) ms := by
  induction ls generalizing scope with
  | nil => rfl
  | cons l ls ih => simp [qualified, ih]

/-- The full names that lines use, in the scope of what precedes them. -/
def named (scope : Text) : List ParsedLine → List Text
  | [] => []
  | p :: ps =>
    (if namesSymbols p then
      (p.operands.flatMap references).map (qualify · (p.labels.foldl scopeAfter scope)) else [])
      ++ named (p.labels.foldl scopeAfter scope) ps

section
variable (place : Place) (n : Nat) (ps qs : List ParsedLine)

theorem definitions_append : definitions place n (ps ++ qs) =
    definitions place n ps ++ definitions (ps.foldl placeAfter place) (n + ps.length) qs := by
  induction ps generalizing place n with
  | nil => rfl
  | cons p ps ih =>
    simp only [List.cons_append, definitions, ih, List.append_assoc, List.foldl_cons,
      List.length_cons]
    rw [show n + 1 + ps.length = n + (ps.length + 1) by omega]

theorem uses_append : uses place n (ps ++ qs) =
    uses place n ps ++ uses (ps.foldl placeAfter place) (n + ps.length) qs := by
  induction ps generalizing place n with
  | nil => rfl
  | cons p ps ih =>
    simp only [List.cons_append, uses, ih, List.append_assoc, List.foldl_cons, List.length_cons]
    rw [show n + 1 + ps.length = n + (ps.length + 1) by omega]

theorem scope_foldl_placeAfter : (ps.foldl placeAfter place).scope =
    (ps.flatMap (·.labels)).foldl scopeAfter place.scope := by
  induction ps generalizing place with
  | nil => rfl
  | cons p ps ih => simp [ih, placeAfter, List.foldl_append]

theorem names_lineDefinitions (labels : List Text) :
    (lineDefinitions place n labels).map (·.1) = qualified place.scope labels := by
  induction labels generalizing place with
  | nil => rfl
  | cons l ls ih => simp [lineDefinitions, qualified, ih]

theorem names_definitions :
    (definitions place n ps).map (·.1) = qualified place.scope (ps.flatMap (·.labels)) := by
  induction ps generalizing place n with
  | nil => rfl
  | cons p ps ih =>
    simp only [definitions, List.map_append, names_lineDefinitions, ih, List.flatMap_cons,
      qualified_append]
    rfl

theorem names_uses : (uses place n ps).map (·.key) = named place.scope ps := by
  induction ps generalizing place n with
  | nil => rfl
  | cons p ps ih =>
    simp only [uses, List.map_append, ih, named]
    congr 1
    unfold lineUses
    split <;> simp

theorem named_append (scope : Text) : named scope (ps ++ qs) =
    named scope ps ++ named ((ps.flatMap (·.labels)).foldl scopeAfter scope) qs := by
  induction ps generalizing scope with
  | nil => rfl
  | cons p ps ih => simp only [List.cons_append, named, ih, List.append_assoc, List.flatMap_cons,
      List.foldl_append]

end

section
variable {place : Place} {n : Nat} {ps : List ParsedLine}

theorem mem_lineDefinitions {labels : List Text} {d : Text × LabelInfo}
    (h : d ∈ lineDefinitions place n labels) : d.2 = ⟨n, place.home⟩ := by
  induction labels generalizing place with
  | nil => cases h
  | cons l ls ih =>
    rcases List.mem_cons.1 h with rfl | h
    · rfl
    · have hrest := ih h
      exact hrest

/-- Lines between two section headers stay in their section. -/
theorem homeAfter_body (h : ∀ p ∈ ps, p.mnemonic ≠ "SECTION") :
    (ps.foldl placeAfter place).home = place.home := by
  induction ps generalizing place with
  | nil => rfl
  | cons p ps ih =>
    obtain ⟨hp, hps⟩ := List.forall_mem_cons.1 h
    rw [List.foldl_cons, ih hps, placeAfter, homeAfter_other hp]

theorem mem_definitions (h : ∀ p ∈ ps, p.mnemonic ≠ "SECTION") {d : Text × LabelInfo}
    (hd : d ∈ definitions place n ps) :
    d.2.home = place.home ∧ n ≤ d.2.line ∧ d.2.line < n + ps.length := by
  induction ps generalizing place n with
  | nil => cases hd
  | cons p ps ih =>
    obtain ⟨hp, hps⟩ := List.forall_mem_cons.1 h
    rw [List.length_cons]
    rcases List.mem_append.1 hd with hd | hd
    · rw [mem_lineDefinitions hd]
      exact ⟨rfl, Nat.le_refl n, Nat.lt_add_of_pos_right (Nat.succ_pos _)⟩
    · obtain ⟨hh, h1, h2⟩ := ih hps hd
      rw [placeAfter, homeAfter_other hp] at hh
      exact ⟨hh, by omega, by omega⟩

theorem mem_uses (h : ∀ p ∈ ps, p.mnemonic ≠ "SECTION") {u : Use}
    (hu : u ∈ uses place n ps) : u.home = place.home ∧ n ≤ u.line := by
  induction ps generalizing place n with
  | nil => cases hu
  | cons p ps ih =>
    obtain ⟨hp, hps⟩ := List.forall_mem_cons.1 h
    rcases List.mem_append.1 hu with hu | hu
    · unfold lineUses at hu
      split at hu
      · obtain ⟨ref, -, rfl⟩ := List.mem_map.1 hu
        exact ⟨rfl, Nat.le_refl n⟩
      · cases hu
    · obtain ⟨hh, h1⟩ := ih hps hu
      rw [placeAfter, homeAfter_other hp] at hh
      exact ⟨hh, by omega⟩

end

/-! ## Artifacts -/

/-- The labels of a line of code. -/
def Line.labels : Line → List Text
  | .label name => [name]
  | _ => []

/-- The symbols that a line of code names. -/
def Line.symbols : Line → List Text
  | .instruction i => i.operands.flatMap Operand.symbols
  | .exported sym => [sym]
  | _ => []

/-- The full names that lines of data use. -/
def dataUses (scope : Text) : List DataLine → List Text
  | [] => []
  | l :: ls =>
    l.targets.map (qualify · (scopeAfter scope l.sym)) ++ dataUses (scopeAfter scope l.sym) ls

/-- The full names that lines of code use. -/
def codeUses (scope : Text) : List Line → List Text
  | [] => []
  | l :: ls =>
    l.symbols.map (qualify · (l.labels.foldl scopeAfter scope))
      ++ codeUses (l.labels.foldl scopeAfter scope) ls

namespace Artifact

variable (a : Artifact)

/-- The symbols under which an artifact holds data, in the order of its text. -/
def dataSymbols : List Text := a.rodata.toList.map DataLine.sym ++ a.bss.toList.map Reservation.sym

/-- The scope of the first line of code. -/
def codeScope : Text := a.dataSymbols.foldl scopeAfter []

/-- The full names that an artifact defines. -/
def names : List Text :=
  qualified [] a.dataSymbols ++ qualified a.codeScope (a.code.toList.flatMap Line.labels)

/-- The full names that an artifact uses. -/
def uses : List Text := dataUses [] a.rodata.toList ++ codeUses a.codeScope a.code.toList

/-- Every name that is used is defined, and none is defined twice. -/
structure Closed : Prop where
  once : a.names.Nodup
  defined : ∀ s ∈ a.uses, s ∈ a.names

/-- An artifact whose lines are read as they are meant. -/
structure Sound : Prop where
  rodata : ∀ l ∈ a.rodata.toList, l.Sound
  bss : ∀ r ∈ a.bss.toList, IsName r.sym
  code : ∀ l ∈ a.code.toList, l.Sound

/-- The header of a section as it is read. -/
def headerLine (s : Section) : ParsedLine := ⟨[], "SECTION", [s.name]⟩

/-- The lines of an artifact as they are read. -/
def parsed : List ParsedLine :=
  headerLine .rodata :: a.rodata.toList.map DataLine.parsed
    ++ (headerLine .bss :: a.bss.toList.map Reservation.parsed
      ++ (headerLine .text :: a.code.toList.map Line.parsed ++ [⟨[], [], []⟩]))

end Artifact

/-! ## The lines of an artifact's text -/

/-- A line with its line break in front of other lines. -/
theorem textLines_cons {t : Text} (h : byte '\n' ∉ t) (rest : Text) :
    textLines (t ++ ([byte '\n'] ++ rest)) = t :: textLines rest := by
  have hsplit := Text.split_append (byte '\n') t rest
  rw [Text.split_of_notMem h] at hsplit
  exact hsplit

theorem textLines_flatMap {α : Type} {xs : List α} {text render : α → Text}
    (hr : ∀ x, render x = text x ++ [byte '\n']) (h : ∀ x ∈ xs, byte '\n' ∉ text x) (rest : Text) :
    textLines (xs.flatMap render ++ rest) = xs.map text ++ textLines rest := by
  induction xs with
  | nil => rfl
  | cons x xs ih =>
    obtain ⟨hx, hxs⟩ := List.forall_mem_cons.1 h
    rw [List.flatMap_cons, hr, List.append_assoc, List.append_assoc, textLines_cons hx, ih hxs]
    rfl

theorem readAs_append {raws raws' : List Text} {ps ps' : List ParsedLine} (h : ReadAs raws ps)
    (h' : ReadAs raws' ps') : ReadAs (raws ++ raws') (ps ++ ps') := by
  unfold ReadAs at h h' ⊢
  rw [List.map_append, List.map_append, h, h']

theorem readAs_map {α : Type} {xs : List α} {text : α → Text} {p : α → ParsedLine}
    (h : ∀ x ∈ xs, parse (text x) 0 = .ok (p x)) : ReadAs (xs.map text) (xs.map p) := by
  unfold ReadAs
  rw [List.map_map, List.map_map]
  exact List.map_congr_left h

/-- A section's header, and the section that it opens. -/
theorem read_header {s : Section} (hs : s ∈ Section.all) :
    byte '\n' ∉ ("section " ++ s.name : Text) ∧
      parse ("section " ++ s.name) 0 = .ok (Artifact.headerLine s) ∧
      Verify.sectionOf (Artifact.headerLine s) 0 = .ok s := by
  have h : ∀ s ∈ Section.all, byte '\n' ∉ ("section " ++ s.name : Text) ∧
      parse ("section " ++ s.name) 0 = .ok (Artifact.headerLine s) ∧
      Verify.sectionOf (Artifact.headerLine s) 0 = .ok s := by decide +kernel
  exact h s hs

theorem textLines_header {s : Section} (hs : s ∈ Section.all) (rest : Text) :
    textLines (Artifact.header s ++ rest) = ("section " ++ s.name) :: textLines rest := by
  have hheader : Artifact.header s = ("section " ++ s.name) ++ [byte '\n'] := rfl
  rw [hheader, List.append_assoc, textLines_cons (read_header hs).1]

/-- The lines of an artifact's text in front of its code. -/
def Artifact.dataTexts (a : Artifact) : List Text :=
  ("section " ++ Section.rodata.name) :: (a.rodata.toList.map DataLine.text
    ++ ("section " ++ Section.bss.name) :: a.bss.toList.map Reservation.text)

/-- The header of the code is none of them. -/
theorem Artifact.codeHeader_notMem (a : Artifact) : ("section .text" : Text) ∉ a.dataTexts := by
  have hcolon : byte ':' ∉ ("section .text" : Text) := by decide
  have hne : ∀ sym rest : Text, "section .text" ≠ sym ++ (": " ++ rest) := by
    intro sym rest he
    apply hcolon
    rw [he]
    exact List.mem_append_right _ (List.mem_append_left _ (by decide))
  have hheader : ("section .text" : Text) ≠ "section " ++ Section.rodata.name ∧
      ("section .text" : Text) ≠ "section " ++ Section.bss.name := by decide
  rw [dataTexts, List.mem_cons, List.mem_append, List.mem_cons]
  rintro (h | h | h | h)
  · exact hheader.1 h
  · obtain ⟨l, -, hl⟩ := List.mem_map.1 h
    exact hne _ _ hl.symm
  · exact hheader.2 h
  · obtain ⟨r, -, hr⟩ := List.mem_map.1 h
    exact hne _ _ hr.symm

/-- The lines of an artifact's text up to its code, whatever the code is. -/
theorem Artifact.textLines_render_data {a : Artifact}
    (hro : ∀ l ∈ a.rodata.toList, byte '\n' ∉ l.text)
    (hbss : ∀ r ∈ a.bss.toList, byte '\n' ∉ r.text) : textLines a.render =
    a.dataTexts ++ ("section .text" : Text) :: textLines (a.code.toList.flatMap Line.render) := by
  have hrender : a.render = header .rodata ++ (a.rodata.toList.flatMap DataLine.render
      ++ (header .bss ++ (a.bss.toList.flatMap Reservation.render
      ++ (header .text ++ a.code.toList.flatMap Line.render)))) := by
    simp [Artifact.render, chunks, Section.all, body]
  have htext : ("section .text" : Text) = "section " ++ Section.text.name := by decide
  rw [hrender, textLines_header (by simp [Section.all]), textLines_flatMap DataLine.render_eq hro,
    textLines_header (by simp [Section.all]), textLines_flatMap Reservation.render_eq hbss,
    textLines_header (by simp [Section.all]), htext]
  simp [dataTexts]

/-- The lines of an artifact's text, when none of its own is broken. -/
theorem Artifact.textLines_render {a : Artifact} (hro : ∀ l ∈ a.rodata.toList, byte '\n' ∉ l.text)
    (hbss : ∀ r ∈ a.bss.toList, byte '\n' ∉ r.text)
    (hcode : ∀ l ∈ a.code.toList, byte '\n' ∉ l.text) : textLines a.render =
    a.dataTexts ++ ("section .text" : Text) :: (a.code.toList.map Line.text ++ textLines []) := by
  have hlines := textLines_flatMap Line.render_eq hcode []
  rw [List.append_nil] at hlines
  rw [textLines_render_data hro hbss, hlines]

/-- Lines under the headers of the three sections. -/
def sectioned (rodata bss code : List ParsedLine) : List ParsedLine :=
  Artifact.headerLine .rodata :: rodata
    ++ (Artifact.headerLine .bss :: bss ++ (Artifact.headerLine .text :: code))

/-- The lines of an artifact's text in front of its code, as they are read. -/
def Artifact.dataReading (a : Artifact) : List ParsedLine :=
  headerLine .rodata :: a.rodata.toList.map DataLine.parsed
    ++ headerLine .bss :: a.bss.toList.map Reservation.parsed

theorem Artifact.readAs_dataTexts {a : Artifact} (hro : ∀ l ∈ a.rodata.toList, l.Legible)
    (hbss : ∀ r ∈ a.bss.toList, isLabel r.sym = true) : ReadAs a.dataTexts a.dataReading := by
  have hdata : ReadAs (a.rodata.toList.map DataLine.text) (a.rodata.toList.map DataLine.parsed) :=
    readAs_map fun l hl => DataLine.parse_text (hro l hl) 0
  have hres : ReadAs (a.bss.toList.map Reservation.text) (a.bss.toList.map Reservation.parsed) :=
    readAs_map fun r hr => Reservation.parse_text (hbss r hr) 0
  have hheader {s : Section} (hs : s ∈ Section.all) := (read_header hs).2.1
  refine readAs_cons.2 ⟨_, _, rfl, hheader (by simp [Section.all]), readAs_append hdata ?_⟩
  exact readAs_cons.2 ⟨_, _, rfl, hheader (by simp [Section.all]), hres⟩

/-- An artifact's text is read section by section. -/
theorem Artifact.readAs_sectioned {a : Artifact} {read : Line → ParsedLine}
    (hro : ∀ l ∈ a.rodata.toList, l.Legible) (hbss : ∀ r ∈ a.bss.toList, isLabel r.sym = true)
    (hcode : ∀ l ∈ a.code.toList, byte '\n' ∉ l.text ∧ parse l.text 0 = .ok (read l)) :
    ReadAs (textLines a.render) (sectioned (a.rodata.toList.map DataLine.parsed)
      (a.bss.toList.map Reservation.parsed) (a.code.toList.map read ++ [⟨[], [], []⟩])) := by
  have hlast : ReadAs (textLines []) [⟨[], [], []⟩] := rfl
  have hlines : ReadAs (a.code.toList.map Line.text) (a.code.toList.map read) :=
    readAs_map fun l hl => (hcode l hl).2
  have hheader := (read_header (s := .text) (by simp [Section.all])).2.1
  rw [Artifact.textLines_render (fun l hl => DataLine.oneLine (hro l hl))
    (fun r hr => Reservation.oneLine (hbss r hr)) fun l hl => (hcode l hl).1, sectioned,
    ← List.append_assoc]
  exact readAs_append (readAs_dataTexts hro hbss)
    (readAs_cons.2 ⟨_, _, rfl, hheader, readAs_append hlines hlast⟩)

/-- **The text of a sound artifact**, line by line. -/
theorem Artifact.readAs {a : Artifact} (h : a.Sound) : ReadAs (textLines a.render) a.parsed :=
  Artifact.readAs_sectioned (fun l hl => (h.rodata l hl).legible) (fun r hr => (h.bss r hr).label)
    fun l hl => ⟨Line.oneLine (h.code l hl), Line.parse_text (h.code l hl) 0⟩

/-! ## What the check comes to -/

/-- The operands behind a mnemonic that is no directive name symbols. -/
theorem namesSymbols_upper {m : Text} (hm : IsMnemonic m)
    (hd : directives.contains (upper m) = false) (labels operands : List Text) :
    namesSymbols ⟨labels, upper m, operands⟩ := by
  have hno : ∀ d ∈ directives, upper m ≠ d := by
    rintro d hd' rfl
    rw [List.contains_eq_mem, decide_eq_false_iff_not] at hd
    exact hd hd'
  refine ⟨hno _ (by simp [directives]), ?_, hno _ (by simp [directives]),
    hno _ (by simp [directives]), hno _ (by simp [directives])⟩
  change upper m ≠ []
  rw [upper_ascii hm.ascii]
  simpa using hm.1

theorem DataLine.namesSymbols_parsed (l : DataLine) : namesSymbols l.parsed := by
  refine namesSymbols_upper l.isMnemonic ?_ _ _
  have h : ∀ m ∈ [("db" : Text), ("dq" : Text)], directives.contains (upper m) = false := by decide
  cases l
  · exact h _ (by simp [DataLine.mnemonic])
  · exact h _ (by simp [DataLine.mnemonic])

theorem Line.namesSymbols_instruction (i : Instruction) :
    namesSymbols (Line.instruction i).parsed := namesSymbols_upper i.isMnemonic.1 i.isMnemonic.2 _ _

theorem named_data {ls : List DataLine} (h : ∀ l ∈ ls, l.Sound) (scope : Text) :
    named scope (ls.map DataLine.parsed) = dataUses scope ls := by
  induction ls generalizing scope with
  | nil => rfl
  | cons l ls ih =>
    obtain ⟨hl, hls⟩ := List.forall_mem_cons.1 h
    rw [List.map_cons, named, if_pos l.namesSymbols_parsed, ih hls]
    simp only [DataLine.parsed, DataLine.references_operands hl, List.foldl_cons, List.foldl_nil]
    rfl

theorem named_reservations (rs : List Reservation) (scope : Text) :
    named scope (rs.map Reservation.parsed) = [] := by
  induction rs generalizing scope with
  | nil => rfl
  | cons r rs ih =>
    rw [List.map_cons, named, ih, Reservation.parsed]
    simp [references_ofInt]

theorem Line.symbols_parsed {l : Line} (h : l.Sound) :
    (if namesSymbols l.parsed then l.parsed.operands.flatMap references else []) = l.symbols := by
  cases l with
  | label name => rfl
  | instruction i =>
    have hops : i.operands.map (references ∘ Operand.render) = i.operands.map Operand.symbols :=
      List.map_congr_left fun o ho => Operand.references_render (h o ho)
    rw [if_pos (Line.namesSymbols_instruction i), Line.symbols, Line.parsed, List.flatMap_def,
      List.map_map, hops, ← List.flatMap_def]
  | verbatim t => exact h.elim
  | comment t => rfl
  | exported sym =>
    have hnames : namesSymbols (Line.exported sym).parsed := by
      simp only [namesSymbols, Line.parsed]
      decide
    rw [if_pos hnames]
    change [sym].flatMap references = [sym]
    simp [Verify.references_name h]
  | blank => rfl

theorem named_code {ls : List Line} (h : ∀ l ∈ ls, l.Sound) (scope : Text) (ps : List ParsedLine)
    (hps : ∀ scope, named scope ps = []) :
    named scope (ls.map Line.parsed ++ ps) = codeUses scope ls := by
  induction ls generalizing scope with
  | nil => exact hps scope
  | cons l ls ih =>
    obtain ⟨hl, hls⟩ := List.forall_mem_cons.1 h
    have hlabels : l.parsed.labels = l.labels := by cases l <;> rfl
    rw [List.map_cons, List.cons_append, named, ih hls, codeUses, hlabels, ← Line.symbols_parsed hl]
    split <;> simp

theorem placeAfter_header {s : Section} (hs : s ∈ Section.all) (place : Place) :
    placeAfter place (Artifact.headerLine s) = ⟨s, place.scope⟩ := by
  rw [placeAfter, homeAfter_section rfl (read_header hs).2.2]
  rfl

theorem definitions_header {s : Section} (hs : s ∈ Section.all) (place : Place) (n : Nat)
    (ps : List ParsedLine) : definitions place n (Artifact.headerLine s :: ps)
      = definitions ⟨s, place.scope⟩ (n + 1) ps := by
  rw [definitions, placeAfter_header hs]
  rfl

theorem uses_header {s : Section} (hs : s ∈ Section.all) (place : Place) (n : Nat)
    (ps : List ParsedLine) : uses place n (Artifact.headerLine s :: ps)
      = uses ⟨s, place.scope⟩ (n + 1) ps := by
  have hno : lineUses place n (Artifact.headerLine s) = [] := if_neg fun h => h.1 rfl
  rw [uses, placeAfter_header hs, hno]
  rfl

theorem place_body {ps : List ParsedLine} (h : ∀ p ∈ ps, p.mnemonic ≠ "SECTION") (s : Section)
    (scope : Text) : ps.foldl placeAfter ⟨s, scope⟩
      = ⟨s, (ps.flatMap (·.labels)).foldl scopeAfter scope⟩ := by
  have hh : (ps.foldl placeAfter ⟨s, scope⟩).home = s := homeAfter_body h
  have hs := scope_foldl_placeAfter ⟨s, scope⟩ ps
  cases hp : ps.foldl placeAfter ⟨s, scope⟩ with
  | mk home scope' =>
    rw [hp] at hh hs
    rw [show home = s from hh, show scope' = _ from hs]

section
variable {rodata bss code : List ParsedLine} (hro : ∀ p ∈ rodata, p.mnemonic ≠ "SECTION")
  (hbss : ∀ p ∈ bss, p.mnemonic ≠ "SECTION")

theorem labels_sectioned (rodata bss code : List ParsedLine) :
    (sectioned rodata bss code).flatMap (·.labels)
      = (rodata ++ (bss ++ code)).flatMap (·.labels) := by
  simp [sectioned, Artifact.headerLine]

theorem named_header (s : Section) (scope : Text) (ps : List ParsedLine) :
    named scope (Artifact.headerLine s :: ps) = named scope ps := by
  have hno : ¬ namesSymbols (Artifact.headerLine s) := fun h => h.1 rfl
  rw [named, if_neg hno]
  rfl

theorem named_sectioned (rodata bss code : List ParsedLine) (scope : Text) :
    named scope (sectioned rodata bss code) = named scope (rodata ++ (bss ++ code)) := by
  simp only [sectioned, List.cons_append, named_header, named_append]

/-- The scope behind lines. -/
def scopeBehind (scope : Text) (ps : List ParsedLine) : Text :=
  (ps.flatMap (·.labels)).foldl scopeAfter scope

include hro hbss

/-- The definitions of a text, section by section. -/
theorem definitions_sectioned : definitions {} 1 (sectioned rodata bss code) =
    definitions ⟨.rodata, []⟩ 2 rodata
      ++ (definitions ⟨.bss, scopeBehind [] rodata⟩ (3 + rodata.length) bss
        ++ definitions ⟨.text, scopeBehind (scopeBehind [] rodata) bss⟩
          (4 + rodata.length + bss.length) code) := by
  have hrodata : Section.rodata ∈ Section.all := by simp [Section.all]
  have hbss' : Section.bss ∈ Section.all := by simp [Section.all]
  have htext : Section.text ∈ Section.all := by simp [Section.all]
  rw [sectioned, List.cons_append, definitions_header hrodata, definitions_append, place_body hro,
    List.cons_append, definitions_header hbss', definitions_append, place_body hbss,
    definitions_header htext]
  simp only [scopeBehind, show 1 + 1 + rodata.length + 1 = 3 + rodata.length by omega,
    show 3 + rodata.length + bss.length + 1 = 4 + rodata.length + bss.length by omega]

/-- The uses of a text, section by section. -/
theorem uses_sectioned : uses {} 1 (sectioned rodata bss code) =
    uses ⟨.rodata, []⟩ 2 rodata
      ++ (uses ⟨.bss, scopeBehind [] rodata⟩ (3 + rodata.length) bss
        ++ uses ⟨.text, scopeBehind (scopeBehind [] rodata) bss⟩
          (4 + rodata.length + bss.length) code) := by
  have hrodata : Section.rodata ∈ Section.all := by simp [Section.all]
  have hbss' : Section.bss ∈ Section.all := by simp [Section.all]
  have htext : Section.text ∈ Section.all := by simp [Section.all]
  rw [sectioned, List.cons_append, uses_header hrodata, uses_append, place_body hro,
    List.cons_append, uses_header hbss', uses_append, place_body hbss, uses_header htext]
  simp only [scopeBehind, show 1 + 1 + rodata.length + 1 = 3 + rodata.length by omega,
    show 3 + rodata.length + bss.length + 1 = 4 + rodata.length + bss.length by omega]

variable (hcode : ∀ p ∈ code, p.mnemonic ≠ "SECTION")
include hcode

/-- Data comes before code. -/
theorem ordered_sectioned {u : Use} (hu : u ∈ uses {} 1 (sectioned rodata bss code))
    {d : Text × LabelInfo} (hd : d ∈ definitions {} 1 (sectioned rodata bss code))
    (hhome : u.home = .text) (hdata : d.2.home ≠ .text) : d.2.line ≤ u.line := by
  have hline : 4 + rodata.length + bss.length ≤ u.line := by
    rw [uses_sectioned hro hbss] at hu
    rcases List.mem_append.1 hu with hu | hu
    · have := (mem_uses hro hu).1
      rw [hhome] at this
      cases this
    rcases List.mem_append.1 hu with hu | hu
    · have := (mem_uses hbss hu).1
      rw [hhome] at this
      cases this
    · exact (mem_uses hcode hu).2
  rw [definitions_sectioned hro hbss] at hd
  rcases List.mem_append.1 hd with hd | hd
  · have hlt := (mem_definitions hro hd).2.2
    omega
  rcases List.mem_append.1 hd with hd | hd
  · have hlt := (mem_definitions hbss hd).2.2
    omega
  · exact absurd (mem_definitions hcode hd).1 hdata

theorem sections_sectioned {p : ParsedLine} (hp : p ∈ sectioned rodata bss code)
    (hm : p.mnemonic = "SECTION") : ∃ s, Verify.sectionOf p 0 = .ok s := by
  have hheader : ∀ s ∈ Section.all, ∃ s', Verify.sectionOf (Artifact.headerLine s) 0 = .ok s' :=
    fun s hs => ⟨s, (read_header hs).2.2⟩
  rcases List.mem_append.1 hp with hp | hp
  · rcases List.mem_cons.1 hp with rfl | hp
    · exact hheader _ (by simp [Section.all])
    · exact absurd hm (hro p hp)
  rcases List.mem_append.1 hp with hp | hp
  · rcases List.mem_cons.1 hp with rfl | hp
    · exact hheader _ (by simp [Section.all])
    · exact absurd hm (hbss p hp)
  · rcases List.mem_cons.1 hp with rfl | hp
    · exact hheader _ (by simp [Section.all])
    · exact absurd hm (hcode p hp)

/-- **Lines in three sections hold together** when every name that they use is defined, and none is
defined twice. -/
theorem consistent_sectioned_iff : Consistent (sectioned rodata bss code) ↔
    (qualified [] ((rodata ++ (bss ++ code)).flatMap (·.labels))).Nodup ∧
      ∀ s ∈ named [] (rodata ++ (bss ++ code)),
        s ∈ qualified [] ((rodata ++ (bss ++ code)).flatMap (·.labels)) := by
  have hnames := names_definitions {} 1 (sectioned rodata bss code)
  have hused := names_uses {} 1 (sectioned rodata bss code)
  rw [labels_sectioned] at hnames
  rw [named_sectioned] at hused
  constructor
  · intro hc
    refine ⟨hnames ▸ hc.once, fun s hs => ?_⟩
    obtain ⟨u, hu, rfl⟩ := List.mem_map.1 (hused.symm ▸ hs)
    obtain ⟨d, hd, hk⟩ := hc.defined u hu
    rw [← hk]
    exact hnames ▸ List.mem_map_of_mem hd
  · rintro ⟨honce, hdefined⟩
    refine ⟨fun p hp => sections_sectioned hro hbss hcode hp, hnames ▸ honce, fun u hu => ?_, ?_⟩
    · have hn := hdefined u.key (hused ▸ List.mem_map_of_mem hu)
      obtain ⟨d, hd, hk⟩ := List.mem_map.1 (hnames.symm ▸ hn)
      exact ⟨d, hd, hk⟩
    · intro u hu d hd _ hhome hdata
      exact ordered_sectioned hro hbss hcode hu hd hhome hdata

end

theorem Line.noSection {l : Line} (h : l.Sound) : l.parsed.mnemonic ≠ "SECTION" := by
  cases l with
  | instruction i => exact (Line.namesSymbols_instruction i).1
  | exported sym =>
    change ("GLOBAL" : Text) ≠ "SECTION"
    decide
  | verbatim t => exact h.elim
  | label name | comment t | blank =>
    change ([] : Text) ≠ "SECTION"
    decide

namespace Artifact

variable {a : Artifact} (h : a.Sound)

/-- The lines of code as they are read, with the empty last line. -/
def codeLines (a : Artifact) : List ParsedLine := a.code.toList.map Line.parsed ++ [⟨[], [], []⟩]

theorem rodata_noSection (a : Artifact) :
    ∀ p ∈ a.rodata.toList.map DataLine.parsed, p.mnemonic ≠ "SECTION" := by
  intro p hp
  obtain ⟨l, -, rfl⟩ := List.mem_map.1 hp
  exact l.namesSymbols_parsed.1

theorem bss_noSection (a : Artifact) :
    ∀ p ∈ a.bss.toList.map Reservation.parsed, p.mnemonic ≠ "SECTION" := by
  intro p hp
  obtain ⟨r, -, rfl⟩ := List.mem_map.1 hp
  change upper "resb" ≠ "SECTION"
  decide

include h in
theorem codeLines_noSection : ∀ p ∈ a.codeLines, p.mnemonic ≠ "SECTION" := by
  refine List.forall_mem_append.2 ⟨fun p hp => ?_, ?_⟩
  · obtain ⟨l, hl, rfl⟩ := List.mem_map.1 hp
    exact Line.noSection (h.code l hl)
  · simp only [List.forall_mem_singleton]
    decide

theorem labels_rodata (a : Artifact) :
    (a.rodata.toList.map DataLine.parsed).flatMap (·.labels) = a.rodata.toList.map DataLine.sym := by
  rw [List.flatMap_map, List.map_eq_flatMap]
  rfl

theorem labels_bss (a : Artifact) :
    (a.bss.toList.map Reservation.parsed).flatMap (·.labels) = a.bss.toList.map Reservation.sym := by
  rw [List.flatMap_map, List.map_eq_flatMap]
  rfl

theorem labels_codeLines (a : Artifact) :
    a.codeLines.flatMap (·.labels) = a.code.toList.flatMap Line.labels := by
  have hlabels : (fun l : Line => l.parsed.labels) = Line.labels := by
    funext l
    cases l <;> rfl
  rw [codeLines, List.flatMap_append, List.flatMap_map, hlabels]
  simp

theorem names_parsed (a : Artifact) :
    qualified [] ((a.rodata.toList.map DataLine.parsed ++ (a.bss.toList.map Reservation.parsed
      ++ a.codeLines)).flatMap (·.labels)) = a.names := by
  rw [List.flatMap_append, List.flatMap_append, labels_rodata, labels_bss, labels_codeLines,
    ← List.append_assoc, qualified_append]
  rfl

include h in
theorem usedNames_parsed : named [] (a.rodata.toList.map DataLine.parsed
    ++ (a.bss.toList.map Reservation.parsed ++ a.codeLines)) = a.uses := by
  have hlast : ∀ scope : Text, named scope [⟨[], [], []⟩] = [] := fun _ => rfl
  rw [named_append, named_append, named_data h.rodata, named_reservations, labels_rodata, labels_bss,
    ← List.foldl_append, codeLines, named_code h.code _ _ hlast]
  rfl

include h in
theorem consistent_iff_closed : Consistent a.parsed ↔ a.Closed := by
  have hparsed : a.parsed = sectioned (a.rodata.toList.map DataLine.parsed)
    (a.bss.toList.map Reservation.parsed) a.codeLines := rfl
  rw [hparsed, consistent_sectioned_iff a.rodata_noSection a.bss_noSection (codeLines_noSection h),
    names_parsed, usedNames_parsed h]
  exact ⟨fun hc => ⟨hc.1, hc.2⟩, fun hc => ⟨hc.once, hc.defined⟩⟩

include h in
/-- **The artifacts whose text is accepted** are the closed ones. -/
theorem verify_render_iff : verify a.render = none ↔ a.Closed := by
  rw [verify_eq_none_iff, ← consistent_iff_closed h]
  constructor
  · rintro ⟨ps, hr, hc⟩
    have heq : ps = a.parsed := by
      have hmap : ps.map Except.ok = a.parsed.map (Except.ok (ε := VerifyFault)) :=
        hr.symm.trans (readAs h)
      exact List.map_injective_iff.2 (fun _ _ => Except.ok.inj) hmap
    exact heq ▸ hc
  · exact fun hc => ⟨a.parsed, readAs h, hc⟩

end Artifact

end StackLang.Assembly
