import Mathlib.Data.List.Flatten
import Mathlib.Data.List.Perm.Basic
import StackLang.Proofs.ArtifactClosure
import StackLang.Proofs.Declarations

/-!
# Data declared in any order

Code may name data before it is declared, since each section keeps its own lines. Whatever identifiers
are declared, and whatever bytes they stand for, the text is accepted when its code names only what is
declared or defined somewhere.

- `Line.Simple`: lines of code that load and jump to names.
- `DefinedAt`: the lines of a text that define a symbol.
- `declarations_in_any_order`: the text is accepted, every declared symbol has one line of its own in
  front of the code, and declarations may be moved across lines of code.
-/

set_option autoImplicit false

namespace StackLang.Assembly

open Text Verify Verifier

/-! ## Lines of code -/

/-- The text of an instruction that loads or jumps to one of some names. -/
def Refers (names : List Text) (t : Text) : Prop :=
  ∃ s ∈ names, t = "mov rax, " ++ s ∨ t = "jmp " ++ s

instance (names : List Text) (t : Text) : Decidable (Refers names t) :=
  inferInstanceAs (Decidable (∃ s ∈ names, _ ∨ _))

/-- A line of code that names nothing but `names`. -/
def Line.Simple (names : List Text) : Line → Prop
  | .label name => name.isIdentifier = true
  | .instruction i => Refers names i.render
  | .verbatim t => Refers names t
  | .comment t => byte '\n' ∉ t
  | .exported sym => sym ∈ names
  | .blank => True

instance (names : List Text) : ∀ l : Line, Decidable (l.Simple names)
  | .label name => inferInstanceAs (Decidable (name.isIdentifier = true))
  | .instruction i => inferInstanceAs (Decidable (Refers names i.render))
  | .verbatim t => inferInstanceAs (Decidable (Refers names t))
  | .comment t => inferInstanceAs (Decidable (byte '\n' ∉ t))
  | .exported sym => inferInstanceAs (Decidable (sym ∈ names))
  | .blank => inferInstanceAs (Decidable True)

/-- What a line of code is read as. -/
def Line.reading (l : Line) : ParsedLine :=
  match parse l.text 0 with
  | .ok p => p
  | .error _ => {}

/-- A line of code that can be read, with its labels and with no other symbols than `names`. -/
structure Line.Read (names : List Text) (l : Line) : Prop where
  oneLine : byte '\n' ∉ l.text
  parse : Verify.parse l.text 0 = .ok l.reading
  noSection : l.reading.mnemonic ≠ "SECTION"
  labels : l.reading.labels = l.labels
  symbols : l.reading.operands.flatMap references ⊆ names

theorem Line.read_of_parse {names : List Text} {l : Line} {p : ParsedLine}
    (hp : Verify.parse l.text 0 = .ok p) (hline : byte '\n' ∉ l.text)
    (hsection : p.mnemonic ≠ "SECTION") (hlabels : p.labels = l.labels)
    (hsymbols : p.operands.flatMap references ⊆ names) : l.Read names := by
  have hread : l.reading = p := by simp [Line.reading, hp]
  exact ⟨hline, by rw [hread, hp], by rw [hread]; exact hsection, by rw [hread]; exact hlabels,
    by rw [hread]; exact hsymbols⟩

section
variable {names : List Text} (hnames : ∀ s ∈ names, isLabel s = true)
include hnames

theorem references_subset {s : Text} (hs : s ∈ names) : references s ⊆ names := by
  intro r hr
  rw [references_label (hnames s hs)] at hr
  split at hr
  · rw [List.mem_singleton.1 hr]
    exact hs
  · cases hr

/-- An instruction is read with its symbol alone. -/
theorem Line.read_statement (m : Text) (ops : List Text) {l : Line} {s : Text}
    (hl : l.text = indent ++ statement m (ops ++ [s])) (hs : s ∈ names) (hm : IsMnemonic m)
    (hd : directives.contains (upper m) = false) (hlabels : l.labels = [])
    (hops : ∀ o ∈ ops, IsOperand o ∧ references o = []) : l.Read names := by
  have hneat : ∀ o ∈ ops ++ [s], NeatOperand o :=
    List.forall_mem_append.2 ⟨fun o ho => (hops o ho).1.neat, by
      simpa using neatOperand_of_isLabel (hnames s hs)⟩
  refine Line.read_of_parse (p := ⟨[], upper m, ops ++ [s]⟩) ?_ ?_ ?_ hlabels.symm ?_
  · rw [hl]
    exact parse_statement hm hd hneat 0
  · rw [hl, List.mem_append, not_or]
    exact ⟨by decide, (neat_statement hm hneat).oneLine⟩
  · exact (namesSymbols_upper hm hd [] []).1
  · have hnone : ops.flatMap references = [] :=
      List.flatMap_eq_nil_iff.2 fun o ho => (hops o ho).2
    simpa [List.flatMap_append, hnone] using references_subset hnames hs

theorem Line.read_of_refers {l : Line} {t : Text} (hl : l.text = indent ++ t)
    (hlabels : l.labels = []) (h : Refers names t) : l.Read names := by
  obtain ⟨s, hs, rfl | rfl⟩ := h
  · refine Line.read_statement hnames "mov" ["rax"] ?_ hs (by decide) (by decide) hlabels ?_
    · rw [hl]
      simp [statement]
      rfl
    · have hrax : IsOperand ("rax" : Text) ∧ references ("rax" : Text) = [] :=
        ⟨isOperand_of_plain (by decide) (by decide) (by decide), by decide⟩
      simpa using hrax
  · refine Line.read_statement hnames "jmp" [] ?_ hs (by decide) (by decide) hlabels (by simp)
    rw [hl]
    simp [statement]
    rfl

/-- **Simple lines** can be read. -/
theorem Line.Simple.read {l : Line} (h : l.Simple names) : l.Read names := by
  have hnone : ([] : Text) ≠ "SECTION" := by decide
  have hglobal : ("GLOBAL" : Text) ≠ "SECTION" := by decide
  cases l with
  | label name =>
    have hlabel := isLabel_of_isIdentifier h
    refine Line.read_of_parse (parse_label hlabel 0) ?_ hnone rfl (by simp)
    change byte '\n' ∉ name ++ [byte ':']
    rw [List.mem_append, not_or]
    exact ⟨(neatOperand_of_isLabel hlabel).oneLine, by decide⟩
  | instruction i => exact Line.read_of_refers hnames rfl rfl h
  | verbatim t => exact Line.read_of_refers hnames rfl rfl h
  | comment t =>
    refine Line.read_of_parse (parse_comment t 0) ?_ hnone rfl (by simp)
    have hindent : byte '\n' ∉ indent ∧ byte '\n' ∉ ("; " : Text) := by decide
    have ht : byte '\n' ∉ t := h
    simpa only [Line.text, List.mem_append, not_or] using And.intro hindent.1 ⟨hindent.2, ht⟩
  | exported sym =>
    have hlabel := hnames sym h
    refine Line.read_of_parse (parse_exported hlabel 0) ?_ hglobal rfl ?_
    · have hg : byte '\n' ∉ ("global " : Text) := by decide
      simpa only [Line.text, List.mem_append, not_or] using
        And.intro hg (neatOperand_of_isLabel hlabel).oneLine
    · simpa using references_subset hnames h
  | blank => exact Line.read_of_parse rfl (by simp [Line.text]) hnone rfl (by simp)

end

/-! ## Names without scopes -/

theorem qualify_of_isIdentifier {l : Text} (h : l.isIdentifier = true) (scope : Text) :
    qualify l scope = l :=
  if_neg fun hd => dot_notMem_of_isIdentifier h (List.mem_of_head? hd)

theorem qualified_of_isIdentifier {ls : List Text} (h : ∀ l ∈ ls, l.isIdentifier = true)
    (scope : Text) : qualified scope ls = ls := by
  induction ls generalizing scope with
  | nil => rfl
  | cons l ls ih =>
    obtain ⟨hl, hls⟩ := List.forall_mem_cons.1 h
    rw [qualified, qualify_of_isIdentifier hl, ih hls]

theorem named_subset {names : List Text} (h : ∀ s ∈ names, s.isIdentifier = true)
    {ps : List ParsedLine} (hps : ∀ p ∈ ps, p.operands.flatMap references ⊆ names) (scope : Text) :
    named scope ps ⊆ names := by
  induction ps generalizing scope with
  | nil => simp [named]
  | cons p ps ih =>
    obtain ⟨hp, hps⟩ := List.forall_mem_cons.1 hps
    refine List.append_subset.2 ⟨?_, ih hps _⟩
    intro s hs
    split at hs
    · obtain ⟨r, hr, rfl⟩ := List.mem_map.1 hs
      rw [qualify_of_isIdentifier (h r (hp hr))]
      exact hp hr
    · cases hs

/-! ## Symbols and their lines -/

theorem targets_elementLines (sym : Text) (i : Nat) (es : List Text) :
    ∀ l ∈ elementLines sym i es, l.targets = [] := by
  induction es generalizing i with
  | nil => simp [elementLines]
  | cons e es ih => exact List.forall_mem_cons.2 ⟨rfl, ih (i + 1)⟩

namespace Declaration

theorem syms_perm (d : Declaration) :
    (d.rodata.map DataLine.sym ++ d.bss.map Reservation.sym).Perm d.symbols := by
  cases d with
  | string sym data | cstring sym data | buffer sym size => exact List.Perm.refl _
  | array sym elements =>
    simp only [rodata, bss, symbols, List.map_append, syms_elementLines, List.map_nil,
      List.append_nil]
    exact List.perm_append_singleton sym _

theorem targets_subset (d : Declaration) : ∀ l ∈ d.rodata, l.targets ⊆ d.symbols := by
  cases d with
  | string sym data | cstring sym data => simp [rodata, DataLine.targets]
  | buffer sym size => simp [rodata]
  | array sym elements =>
    refine List.forall_mem_append.2 ⟨fun l hl => by simp [targets_elementLines sym 0 elements l hl], ?_⟩
    simp [DataLine.targets, symbols]

end Declaration

section
variable (ds : List Declaration) (ls : List Line)

theorem symbolNames_assembled :
    (assembled .empty ds ls).symbolNames = ds.flatMap Declaration.symbols := by
  have hnames : ds.map (fun d => d.entries.map (·.1)) = ds.map Declaration.symbols :=
    List.map_congr_left fun d _ => d.names_entries
  rw [assembled, symbolNames_extend, List.map_flatMap, List.flatMap_def, hnames, ← List.flatMap_def]
  rfl

/-- The data of an artifact stands under its declared symbols. -/
theorem dataSymbols_perm :
    (assembled .empty ds ls).dataSymbols.Perm (assembled .empty ds ls).symbolNames := by
  have hdata : (assembled .empty ds ls).dataSymbols
      = ds.flatMap (fun d => d.rodata.map DataLine.sym)
        ++ ds.flatMap (fun d => d.bss.map Reservation.sym) := by
    simp [Artifact.dataSymbols, assembled, extend, Artifact.empty, List.map_flatMap]
  rw [hdata, symbolNames_assembled]
  exact (List.flatMap_append_perm ..).trans (List.Perm.flatMap_left _ fun d _ => d.syms_perm)

theorem targets_assembled : ∀ l ∈ (assembled .empty ds ls).rodata.toList,
    l.targets ⊆ (assembled .empty ds ls).symbolNames := by
  intro l hl t ht
  rw [symbolNames_assembled]
  have hl : l ∈ ds.flatMap Declaration.rodata := by
    simpa [assembled, extend, Artifact.empty] using hl
  obtain ⟨d, hd, hl⟩ := List.mem_flatMap.1 hl
  exact List.mem_flatMap.2 ⟨d, hd, d.targets_subset l hl ht⟩

end

/-- The line with index `i` defines a symbol. -/
def DefinedAt (code sym : Text) (i : Nat) : Prop :=
  ∃ raw p, (textLines code)[i]? = some raw ∧ parse raw (i + 1) = .ok p ∧ sym ∈ p.labels

theorem getElem?_of_readAs {raws : List Text} {ps : List ParsedLine} (h : ReadAs raws ps) (i : Nat) :
    raws[i]?.map (parse · 0) = ps[i]?.map .ok := by
  rw [← List.getElem?_map, ← List.getElem?_map]
  exact congrArg (·[i]?) h

/-- The lines of the first part of a text that define a symbol, by what this part is read as. -/
theorem definedAt_iff_of_append {code sym : Text} {raws rest : List Text} {ps : List ParsedLine}
    (ht : textLines code = raws ++ rest) (h : ReadAs raws ps) {i : Nat} (hi : i < raws.length) :
    DefinedAt code sym i ↔ ∃ p, ps[i]? = some p ∧ sym ∈ p.labels := by
  have hget := getElem?_of_readAs h i
  have hline : (textLines code)[i]? = raws[i]? := by rw [ht, List.getElem?_append_left hi]
  constructor
  · rintro ⟨raw, p, hraw, hp, hs⟩
    rw [← hline, hraw, Option.map_some, parse_lineNo hp 0] at hget
    obtain ⟨q, hq, hpq⟩ := Option.map_eq_some_iff.1 hget.symm
    cases hpq
    exact ⟨p, hq, hs⟩
  · rintro ⟨p, hp, hs⟩
    rw [hp, Option.map_some, ← hline] at hget
    obtain ⟨raw, hraw, hparse⟩ := Option.map_eq_some_iff.1 hget
    exact ⟨raw, p, hraw, parse_lineNo hparse _, hs⟩

theorem definedAt_iff {code sym : Text} {ps : List ParsedLine} (h : ReadAs (textLines code) ps)
    {i : Nat} : DefinedAt code sym i ↔ ∃ p, ps[i]? = some p ∧ sym ∈ p.labels := by
  by_cases hi : i < (textLines code).length
  · exact definedAt_iff_of_append (List.append_nil _).symm h hi
  · have hnone : (textLines code)[i]? = none := List.getElem?_eq_none (Nat.le_of_not_lt hi)
    have hget := getElem?_of_readAs h i
    rw [hnone, Option.map_none, eq_comm, Option.map_eq_none_iff] at hget
    constructor
    · rintro ⟨raw, p, hraw, -⟩
      cases hnone.symm.trans hraw
    · rintro ⟨p, hp, -⟩
      cases hget.symm.trans hp

/-- The labels in front of the code are the symbols of the data. -/
theorem labels_dataReading (a : Artifact) :
    a.dataReading.flatMap (·.labels) = a.dataSymbols := by
  rw [Artifact.dataSymbols, ← Artifact.labels_rodata, ← Artifact.labels_bss]
  simp [Artifact.dataReading, Artifact.headerLine]

/-- Where no label stands twice, a symbol has one line. -/
theorem index_unique {ps : List ParsedLine} (h : (ps.flatMap (·.labels)).Nodup) {sym : Text}
    {i j : Nat} {p q : ParsedLine} (hi : ps[i]? = some p) (hj : ps[j]? = some q)
    (hp : sym ∈ p.labels) (hq : sym ∈ q.labels) : i = j := by
  have hpair := List.pairwise_iff_getElem.1 (List.nodup_flatMap.1 h).2
  obtain ⟨hil, rfl⟩ := List.getElem?_eq_some_iff.1 hi
  obtain ⟨hjl, rfl⟩ := List.getElem?_eq_some_iff.1 hj
  rcases Nat.lt_trichotomy i j with hlt | heq | hlt
  · exact absurd hq (List.disjoint_left.1 (hpair i j hil hjl hlt) hp)
  · exact heq
  · exact absurd hp (List.disjoint_left.1 (hpair j i hjl hil hlt) hq)

/-! ## Accepted texts -/

/-- The names that an artifact defines when it has no local labels. -/
def Artifact.plainNames (a : Artifact) : List Text :=
  a.dataSymbols ++ a.code.toList.flatMap Line.labels

/-- An artifact that names nothing but what it defines, each under an identifier of its own. -/
structure Artifact.Simple (a : Artifact) : Prop where
  once : a.plainNames.Nodup
  identifiers : ∀ s ∈ a.plainNames, s.isIdentifier = true
  targets : ∀ l ∈ a.rodata.toList, l.targets ⊆ a.plainNames
  code : ∀ l ∈ a.code.toList, l.Simple a.plainNames

/-- The lines of an artifact's code, as they are read. -/
def Artifact.codeReading (a : Artifact) : List ParsedLine :=
  a.code.toList.map Line.reading ++ [⟨[], [], []⟩]

namespace Artifact.Simple

variable {a : Artifact} (h : a.Simple)
include h

theorem isLabel_names : ∀ s ∈ a.plainNames, isLabel s = true :=
  fun s hs => isLabel_of_isIdentifier (h.identifiers s hs)

theorem read_code : ∀ l ∈ a.code.toList, l.Read a.plainNames :=
  fun l hl => (h.code l hl).read h.isLabel_names

theorem legible : ∀ l ∈ a.rodata.toList, l.Legible := by
  intro l hl
  refine ⟨h.isLabel_names _ ?_, fun t ht => h.isLabel_names t (h.targets l hl ht)⟩
  exact List.mem_append_left _ (List.mem_append_left _ (List.mem_map_of_mem hl))

theorem isLabel_bss : ∀ r ∈ a.bss.toList, isLabel r.sym = true := fun _ hr =>
  h.isLabel_names _ (List.mem_append_left _ (List.mem_append_right _ (List.mem_map_of_mem hr)))

theorem readAs : ReadAs (textLines a.render) (sectioned (a.rodata.toList.map DataLine.parsed)
    (a.bss.toList.map Reservation.parsed) a.codeReading) :=
  readAs_sectioned h.legible h.isLabel_bss fun l hl =>
    ⟨(h.read_code l hl).oneLine, (h.read_code l hl).parse⟩

theorem labels_codeReading :
    a.codeReading.flatMap (·.labels) = a.code.toList.flatMap Line.labels := by
  have hlabels : a.code.toList.map (fun l => l.reading.labels) = a.code.toList.map Line.labels :=
    List.map_congr_left fun l hl => (h.read_code l hl).labels
  rw [codeReading, List.flatMap_append, List.flatMap_map, List.flatMap_def, hlabels,
    ← List.flatMap_def]
  simp

theorem labels_reading : (a.rodata.toList.map DataLine.parsed
    ++ (a.bss.toList.map Reservation.parsed ++ a.codeReading)).flatMap (·.labels) = a.plainNames := by
  rw [List.flatMap_append, List.flatMap_append, labels_rodata, labels_bss, h.labels_codeReading,
    ← List.append_assoc]
  rfl

/-- The lines of all sections name nothing but what is defined. -/
theorem symbols_reading : ∀ p ∈ a.rodata.toList.map DataLine.parsed
    ++ (a.bss.toList.map Reservation.parsed ++ a.codeReading),
      p.operands.flatMap references ⊆ a.plainNames := by
  refine List.forall_mem_append.2 ⟨fun p hp => ?_, List.forall_mem_append.2
    ⟨fun p hp => ?_, List.forall_mem_append.2 ⟨fun p hp => ?_, by simp⟩⟩⟩
  · obtain ⟨l, hl, rfl⟩ := List.mem_map.1 hp
    rw [DataLine.parsed, (DataLine.read_operands (h.legible l hl)).2]
    exact fun t ht => h.targets l hl (List.mem_of_mem_filter ht)
  · obtain ⟨r, -, rfl⟩ := List.mem_map.1 hp
    simp [Reservation.parsed, references_ofInt]
  · obtain ⟨l, hl, rfl⟩ := List.mem_map.1 hp
    exact (h.read_code l hl).symbols

theorem codeReading_noSection : ∀ p ∈ a.codeReading, p.mnemonic ≠ "SECTION" := by
  have hnone : ([] : Text) ≠ "SECTION" := by decide
  refine List.forall_mem_append.2 ⟨fun p hp => ?_, by simpa using hnone⟩
  obtain ⟨l, hl, rfl⟩ := List.mem_map.1 hp
  exact (h.read_code l hl).noSection

/-- **Simple artifacts are accepted.** -/
theorem verify : Assembly.verify a.render = none := by
  refine (verify_eq_none_iff _).2 ⟨_, h.readAs, ?_⟩
  rw [consistent_sectioned_iff a.rodata_noSection a.bss_noSection h.codeReading_noSection,
    h.labels_reading, qualified_of_isIdentifier h.identifiers]
  exact ⟨h.once, fun s hs => named_subset h.identifiers h.symbols_reading [] hs⟩

/-- **The line of a symbol**: every symbol of the data has one, and it stands in front of the code. -/
theorem definedAt {s : Text} (hs : s ∈ a.dataSymbols) :
    ∃ i < a.dataTexts.length, ∀ j, DefinedAt a.render s j ↔ j = i := by
  have hread : ReadAs (textLines a.render)
      (a.dataReading ++ (headerLine .text :: a.codeReading)) := by
    have hread := h.readAs
    rwa [sectioned, ← List.append_assoc] at hread
  have hnodup : ((a.dataReading ++ (headerLine .text :: a.codeReading)).flatMap
      (·.labels)).Nodup := by
    have honce := h.once
    rw [← h.labels_reading, ← labels_sectioned, sectioned, ← List.append_assoc] at honce
    exact honce
  have hmem : s ∈ a.dataReading.flatMap (·.labels) := by
    rw [labels_dataReading]
    exact hs
  obtain ⟨p, hp, hsp⟩ := List.mem_flatMap.1 hmem
  obtain ⟨i, hi, rfl⟩ := List.getElem_of_mem hp
  have hget : (a.dataReading ++ (headerLine .text :: a.codeReading))[i]? = some a.dataReading[i] := by
    rw [List.getElem?_append_left hi, List.getElem?_eq_getElem hi]
  refine ⟨i, by simpa [dataReading, dataTexts] using hi, fun j => ?_⟩
  rw [definedAt_iff hread]
  constructor
  · rintro ⟨q, hq, hsq⟩
    exact index_unique hnodup hq hget hsq hsp
  · rintro rfl
    exact ⟨_, hget, hsp⟩

end Artifact.Simple

/-! ## Declarations among code -/

/-- The labels that edits put into the code. -/
def codeLabels (es : List Edit) : List Text := (written es).flatMap Line.labels

theorem Line.Simple.mono {names names' : List Text} (hsub : names ⊆ names') {l : Line}
    (h : l.Simple names) : l.Simple names' := by
  have hrefers {t : Text} : Refers names t → Refers names' t := fun ⟨s, hs, ht⟩ => ⟨s, hsub hs, ht⟩
  cases l with
  | label name | comment t | blank => exact h
  | instruction i => exact hrefers h
  | verbatim t => exact hrefers h
  | exported sym => exact hsub h

theorem Line.Simple.labels {names : List Text} {l : Line} (h : l.Simple names) :
    ∀ s ∈ l.labels, s.isIdentifier = true := by
  cases l with
  | label name => exact List.forall_mem_singleton.2 h
  | instruction i | verbatim t | comment t | exported sym | blank => simp [Line.labels]

/-- What edits leave is simple when their lines are. -/
theorem simple_of_run {es : List Edit} {a : Artifact} (hrun : run .empty es = .ok a)
    (honce : (codeLabels es).Nodup) (hnew : ∀ l ∈ codeLabels es, l ∉ a.symbolNames)
    (hlines : ∀ l ∈ written es, l.Simple (a.symbolNames ++ codeLabels es)) :
    a.Simple ∧ a.symbolNames ⊆ a.dataSymbols := by
  obtain ⟨hvalid, hnodup, ha⟩ := (run_eq_iff (by simp [Artifact.symbolNames, Artifact.empty])).1 hrun
  have hcode : a.code.toList = written es := by simp [ha, assembled, extend, Artifact.empty]
  have hnames : a.symbolNames = (declarations es).flatMap Declaration.symbols := by
    rw [ha, symbolNames_assembled]
  have hperm : a.dataSymbols.Perm a.symbolNames := by
    rw [ha]
    exact dataSymbols_perm ..
  have hplain : a.plainNames.Perm (a.symbolNames ++ codeLabels es) := by
    rw [Artifact.plainNames, hcode]
    exact hperm.append_right _
  have hids : ∀ s ∈ a.symbolNames ++ codeLabels es, s.isIdentifier = true := by
    refine List.forall_mem_append.2 ⟨fun s hs => ?_, fun s hs => ?_⟩
    · rw [hnames] at hs
      obtain ⟨d, hd, hs⟩ := List.mem_flatMap.1 hs
      exact (hvalid d hd).1 s hs
    · obtain ⟨l, hl, hs⟩ := List.mem_flatMap.1 hs
      exact (hlines l hl).labels s hs
  refine ⟨⟨?_, fun s hs => hids s (hplain.subset hs), ?_, ?_⟩, hperm.symm.subset⟩
  · rw [hplain.nodup_iff, List.nodup_append]
    refine ⟨?_, honce, fun s hs l hl hsl => hnew l hl (hsl ▸ hs)⟩
    rw [hnames]
    exact (List.nodup_append.1 hnodup).2.1
  · intro l hl t ht
    rw [ha] at hl
    refine hplain.symm.subset (List.mem_append_left _ ?_)
    rw [ha]
    exact targets_assembled _ _ l hl ht
  · rw [hcode]
    exact fun l hl => (hlines l hl).mono hplain.symm.subset

/-- **Data may be declared in any order.** Let all declarations of a list of edits be accepted, let the
labels of its code be different identifiers that are not declared, and let its code name nothing but what
is declared or defined somewhere in the list. Then the text is accepted, every declared symbol is defined
by exactly one line, which stands in front of the code, and the same declarations among the same lines
of code, at whatever places, leave the same artifact. -/
theorem declarations_in_any_order {es : List Edit} {a : Artifact} (hrun : run .empty es = .ok a)
    (honce : (codeLabels es).Nodup) (hnew : ∀ l ∈ codeLabels es, l ∉ a.symbolNames)
    (hlines : ∀ l ∈ written es, l.Simple (a.symbolNames ++ codeLabels es)) :
    verify a.render = none ∧
      (∃ before after, textLines a.render = before ++ ("section .text" : Text) :: after ∧
        ("section .text" : Text) ∉ before ∧
          ∀ s ∈ a.symbolNames, ∃ i < before.length, ∀ j, DefinedAt a.render s j ↔ j = i) ∧
        ∀ es', declarations es' = declarations es → written es' = written es →
          run .empty es' = .ok a := by
  obtain ⟨hsimple, hsub⟩ := simple_of_run hrun honce hnew hlines
  have hempty : Artifact.empty.symbolNames.Nodup := by simp [Artifact.symbolNames, Artifact.empty]
  refine ⟨hsimple.verify, ⟨a.dataTexts, _, Artifact.textLines_render ?_ ?_ ?_, a.codeHeader_notMem,
    fun s hs => hsimple.definedAt (hsub hs)⟩, fun es' hds hls => ?_⟩
  · exact fun l hl => DataLine.oneLine (hsimple.legible l hl)
  · exact fun r hr => Reservation.oneLine (hsimple.isLabel_bss r hr)
  · exact fun l hl => (hsimple.read_code l hl).oneLine
  · rw [run_eq_iff hempty, hds, hls]
    exact (run_eq_iff hempty).1 hrun

/-- Declarations behind the code that names them, under a name with an umlaut and the names of a
register and a directive. -/
def mixedEdits : List Edit :=
  [.write (.exported "_start"), .write (.label "_start"), .write (.verbatim "mov rax, größe_1"),
   .declare (.array "größe" ["it's", "\"; x: y"]), .write (.comment "'open"),
   .write (.instruction (.jump "rax")), .declare (.cstring "rax" "`, größe"),
   .write (.verbatim "mov rax, section"), .declare (.buffer "section" 8), .write .blank,
   .write (.instruction (.jump "_start")), .declare (.string "db" [])]

/-- The same with all declarations in front. -/
def sortedEdits : List Edit :=
  (declarations mixedEdits).map .declare ++ (written mixedEdits).map .write

theorem declarations_in_any_order_mixed : ∃ a, run .empty mixedEdits = .ok a ∧
    (codeLabels mixedEdits).Nodup ∧ (∀ l ∈ codeLabels mixedEdits, l ∉ a.symbolNames) ∧
      (∀ l ∈ written mixedEdits, l.Simple (a.symbolNames ++ codeLabels mixedEdits)) ∧
        verify a.render = none ∧ run .empty sortedEdits = .ok a := by
  refine ⟨assembled .empty (declarations mixedEdits) (written mixedEdits), ?_⟩
  have hrun : run .empty mixedEdits
      = .ok (assembled .empty (declarations mixedEdits) (written mixedEdits)) := rfl
  have honce : (codeLabels mixedEdits).Nodup := by decide
  have hnew : ∀ l ∈ codeLabels mixedEdits,
      l ∉ (assembled .empty (declarations mixedEdits) (written mixedEdits)).symbolNames := by
    rw [symbolNames_assembled]
    decide +kernel
  have hlines : ∀ l ∈ written mixedEdits, l.Simple ((assembled .empty (declarations mixedEdits)
      (written mixedEdits)).symbolNames ++ codeLabels mixedEdits) := by
    rw [symbolNames_assembled]
    decide +kernel
  have hall := declarations_in_any_order hrun honce hnew hlines
  exact ⟨hrun, honce, hnew, hlines, hall.1, hall.2.2 sortedEdits rfl rfl⟩

/-- Two conditions cannot be dropped. A symbol that is made visible has to be defined, even where the
code does nothing with it. And declarations keep their order among themselves: one that is moved past
code and past another declaration leaves a different text. -/
theorem order_and_exports_matter :
    (run .empty [.write (.exported "_start")] = .ok (Artifact.empty.line (.exported "_start")) ∧
      verify (Artifact.empty.line (.exported "_start")).render
        = some (.undefinedSymbol "_start" 4)) ∧
    ∃ a b, run .empty [.declare (.string "x" "1"), .declare (.string "y" "2"), .write .blank] = .ok a ∧
      run .empty [.declare (.string "y" "2"), .write .blank, .declare (.string "x" "1")] = .ok b ∧
        a.render ≠ b.render := by
  refine ⟨⟨rfl, by decide +kernel⟩, _, _, rfl, rfl, by decide +kernel⟩

end StackLang.Assembly
