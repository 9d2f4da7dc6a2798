import Mathlib.Data.List.Induction
import Mathlib.Data.List.Sigma
import StackLang.Proofs.ArtifactClosure
import StackLang.Proofs.Identifiers

/-!
# Labels, symbols and their scopes

Where a text defines a name and where it uses one can be said by positions alone. The scope of a label
is the last label before it that is not local, whatever lines lie between, and the section of a line is
the one that the last section line before it names. The two passes of the verifier keep both as they go,
and this module says that what they keep is what the positions say.

- `LabelSite`, `SymbolUse`: a label and a used symbol in their places, with full names and sections.
- `WellFormed`: what a text has to satisfy, in terms of these places.
- `qualify_inj`: full names tell labels and scopes apart.
- `verify_iff_wellFormed`: the texts that are accepted.
-/

set_option autoImplicit false

namespace StackLang.Assembly

open Text Verify Verifier

/-! ## Scopes and sections behind lines -/

/-- Whether a label belongs to the last one before it that is not local. -/
def isLocal (label : Text) : Bool := label.head? = some (byte '.')

/-- The scope behind labels: the last one that is not local, and empty when there is none. -/
def scopeOf (labels : List Text) : Text := (labels.filter (!isLocal ·)).getLast?.getD []

/-- The section that the only operand of a line names, in any case. -/
def namedSection? (p : ParsedLine) : Option Section :=
  match p.operands with
  | [name] => Section.all.find? fun s => foldsTo name s.name
  | _ => none

/-- Whether a line opens a section. -/
def opensSection (p : ParsedLine) : Bool := p.mnemonic = "SECTION"

/-- The section behind lines: the one that the last section line names, and `.text` when there is
none. -/
def homeOf (ps : List ParsedLine) : Section :=
  ((ps.filter opensSection).getLast?.bind namedSection?).getD .text

/-- The labels of lines, in order. -/
def labelsOf (ps : List ParsedLine) : List Text := ps.flatMap (·.labels)

theorem scopeOf_concat (labels : List Text) (l : Text) :
    scopeOf (labels ++ [l]) = scopeAfter (scopeOf labels) l := by
  unfold scopeOf scopeAfter
  rw [List.filter_append]
  by_cases hl : isLocal l = true
  · have hhead : l.head? = some (byte '.') := by simpa [isLocal] using hl
    simp [hl, hhead]
  · have hhead : ¬ l.head? = some (byte '.') := by simpa [isLocal] using hl
    simp [hl, hhead]

/-- The scope that a pass keeps is the last label that is not local. -/
theorem foldl_scopeAfter (labels : List Text) : labels.foldl scopeAfter [] = scopeOf labels := by
  induction labels using List.reverseRecOn with
  | nil => rfl
  | append_singleton labels l ih => rw [List.foldl_concat, ih, scopeOf_concat]

theorem foldl_scopeAfter_scopeOf (labels more : List Text) :
    more.foldl scopeAfter (scopeOf labels) = scopeOf (labels ++ more) := by
  rw [← foldl_scopeAfter, ← foldl_scopeAfter, List.foldl_append]

theorem sectionOf_eq_ok_iff {p : ParsedLine} {n : Nat} {s : Section} :
    Verify.sectionOf p n = .ok s ↔ namedSection? p = some s := by
  unfold Verify.sectionOf namedSection?
  match p.operands with
  | [] => simp
  | [name] =>
    dsimp only
    split <;> simp [*]
  | _ :: _ :: _ => simp

theorem homeOf_concat (ps : List ParsedLine) (p : ParsedLine) :
    homeOf (ps ++ [p]) = homeAfter (homeOf ps) p := by
  unfold homeOf homeAfter
  rw [List.filter_append]
  by_cases hp : p.mnemonic = "SECTION"
  · rw [if_pos hp, List.filter_cons_of_pos (by simpa [opensSection] using hp), List.filter_nil,
      List.getLast?_concat, Option.bind_some]
    cases hs : Verify.sectionOf p 0 with
    | ok s => simp [sectionOf_eq_ok_iff.1 hs]
    | error fault =>
      have hnone : namedSection? p = none := by
        rw [Option.eq_none_iff_forall_not_mem]
        intro s hmem
        rw [sectionOf_eq_ok_iff.2 hmem] at hs
        cases hs
      simp [hnone]
  · rw [if_neg hp, List.filter_cons_of_neg (by simpa [opensSection] using hp), List.filter_nil,
      List.append_nil]

/-- The place that a pass keeps is told by the lines behind it. -/
theorem foldl_placeAfter (ps : List ParsedLine) :
    ps.foldl placeAfter {} = ⟨homeOf ps, scopeOf (labelsOf ps)⟩ := by
  induction ps using List.reverseRecOn with
  | nil => rfl
  | append_singleton ps p ih =>
    have hlabels : labelsOf (ps ++ [p]) = labelsOf ps ++ p.labels := by simp [labelsOf]
    rw [List.foldl_concat, ih, placeAfter, homeOf_concat, hlabels, foldl_scopeAfter_scopeOf]

theorem homeOf_mem (ps : List ParsedLine) : homeOf ps ∈ Section.all := by
  unfold homeOf
  cases h : (ps.filter opensSection).getLast?.bind namedSection? with
  | none => simp [Section.all]
  | some s =>
    obtain ⟨p, -, hs⟩ := Option.bind_eq_some_iff.1 h
    unfold namedSection? at hs
    split at hs
    · exact List.mem_of_find?_eq_some hs
    · cases hs

theorem homeOf_ne_text_iff (ps : List ParsedLine) :
    homeOf ps ≠ .text ↔ homeOf ps = .rodata ∨ homeOf ps = .bss := by
  have h := homeOf_mem ps
  simp only [Section.all, List.mem_cons, List.not_mem_nil, or_false] at h
  rcases h with h | h | h <;> simp [h]

/-! ## Places -/

/-- A label in its place: the line, and the number among the line's labels, from zero on. -/
structure LabelSite where
  line : Nat
  index : Nat
  label : Text

namespace LabelSite

/-- The label stands in the lines. -/
def In (s : LabelSite) (ps : List ParsedLine) : Prop :=
  ∃ p, ps[s.line]? = some p ∧ p.labels[s.index]? = some s.label

/-- The labels before it. -/
def before (s : LabelSite) (ps : List ParsedLine) : List Text :=
  labelsOf (ps.take s.line) ++ (ps[s.line]?.elim [] (·.labels)).take s.index

/-- The scope in which the label stands. -/
def scope (s : LabelSite) (ps : List ParsedLine) : Text := scopeOf (s.before ps)

/-- The name that the label defines. -/
def name (s : LabelSite) (ps : List ParsedLine) : Text := qualify s.label (s.scope ps)

/-- The section in which the label stands. -/
def home (s : LabelSite) (ps : List ParsedLine) : Section := homeOf (ps.take s.line)

end LabelSite

/-- A symbol that an operand on a line names. -/
structure SymbolUse where
  line : Nat
  symbol : Text

/-- The mnemonics whose operands are not looked up. -/
def silentMnemonics : List Text := ["SECTION", "EXTERN", "DEFAULT", "BITS"]

namespace SymbolUse

/-- The symbol is named in the lines. -/
def In (u : SymbolUse) (ps : List ParsedLine) : Prop :=
  ∃ p, ps[u.line]? = some p ∧ p.mnemonic ∉ silentMnemonics ∧
    ∃ o ∈ p.operands, u.symbol ∈ references o

/-- The scope in which the symbol stands: labels on its own line count. -/
def scope (u : SymbolUse) (ps : List ParsedLine) : Text := scopeOf (labelsOf (ps.take (u.line + 1)))

/-- The name that is looked up. -/
def name (u : SymbolUse) (ps : List ParsedLine) : Text := qualify u.symbol (u.scope ps)

/-- The section in which the symbol is named. -/
def home (u : SymbolUse) (ps : List ParsedLine) : Section := homeOf (ps.take u.line)

end SymbolUse

/-- Lines whose labels and symbols hold together. -/
structure WellFormed (ps : List ParsedLine) : Prop where
  /-- A section line has one operand, which names a section. -/
  sections : ∀ p ∈ ps, p.mnemonic = "SECTION" →
    ∃ name s, p.operands = [name] ∧ s ∈ [Section.rodata, .bss, .text] ∧ foldsTo name s.name = true
  /-- No two labels define one name. -/
  once : ∀ s s' : LabelSite, s.In ps → s'.In ps → s.name ps = s'.name ps → s = s'
  /-- What is named is defined somewhere. -/
  defined : ∀ u : SymbolUse, u.In ps → ∃ s : LabelSite, s.In ps ∧ s.name ps = u.name ps
  /-- Code names no data that a later line defines. -/
  ordered : ∀ (u : SymbolUse) (s : LabelSite), u.In ps → s.In ps → s.name ps = u.name ps →
    u.home ps = .text → (s.home ps = .rodata ∨ s.home ps = .bss) → s.line ≤ u.line

/-! ## Definitions by place -/

/-- All labels in their places. -/
def sites (ps : List ParsedLine) : List LabelSite :=
  ps.zipIdx.flatMap fun (p, i) => p.labels.zipIdx.map fun (l, j) => ⟨i, j, l⟩

theorem mem_sites {ps : List ParsedLine} {s : LabelSite} : s ∈ sites ps ↔ s.In ps := by
  simp only [sites, LabelSite.In, List.mem_flatMap, List.mem_map, Prod.exists,
    List.mem_zipIdx_iff_getElem?]
  constructor
  · rintro ⟨p, i, hp, l, j, hl, rfl⟩
    exact ⟨p, hp, hl⟩
  · rintro ⟨p, hp, hl⟩
    exact ⟨p, s.line, hp, s.label, s.index, hl, rfl⟩

theorem sites_concat (ps : List ParsedLine) (p : ParsedLine) :
    sites (ps ++ [p]) = sites ps ++ p.labels.zipIdx.map fun (l, j) => ⟨ps.length, j, l⟩ := by
  simp [sites, List.zipIdx_append]

theorem nodup_sites (ps : List ParsedLine) : (sites ps).Nodup := by
  induction ps using List.reverseRecOn with
  | nil => exact List.nodup_nil
  | append_singleton ps p ih =>
    rw [sites_concat]
    refine List.Nodup.append ih ?_ ?_
    · refine List.Nodup.map ?_ (List.Nodup.of_map _ (List.nodup_zipIdx_map_snd _))
      rintro ⟨l, j⟩ ⟨l', j'⟩ h
      simp only [LabelSite.mk.injEq, true_and] at h
      rw [h.1, h.2]
    · intro s hs hs'
      obtain ⟨q, hq, -⟩ := mem_sites.1 hs
      obtain ⟨⟨l, j⟩, -, rfl⟩ := List.mem_map.1 hs'
      simp at hq

/-- What a label defines. -/
def LabelSite.definition (s : LabelSite) (ps : List ParsedLine) : Text × LabelInfo :=
  (s.name ps, ⟨s.line + 1, s.home ps⟩)

theorem LabelSite.before_concat {s : LabelSite} {ps : List ParsedLine} (h : s.In ps)
    (p : ParsedLine) : s.before (ps ++ [p]) = s.before ps := by
  obtain ⟨q, hq, -⟩ := h
  have hlt : s.line < ps.length := (List.getElem?_eq_some_iff.1 hq).1
  rw [before, before, List.take_append_of_le_length (Nat.le_of_lt hlt), List.getElem?_append_left hlt]

theorem LabelSite.definition_concat {s : LabelSite} {ps : List ParsedLine} (h : s.In ps)
    (p : ParsedLine) : s.definition (ps ++ [p]) = s.definition ps := by
  have hbefore := before_concat h p
  obtain ⟨q, hq, -⟩ := h
  have hlt : s.line < ps.length := (List.getElem?_eq_some_iff.1 hq).1
  rw [definition, definition, name, name, scope, scope, hbefore, home, home,
    List.take_append_of_le_length (Nat.le_of_lt hlt)]

/-- The definitions of one line, in the scope of the labels before it. -/
theorem lineDefinitions_eq (home : Section) (n : Nat) (labels more : List Text) :
    lineDefinitions ⟨home, scopeOf labels⟩ n more = more.zipIdx.map fun (l, j) =>
      (qualify l (scopeOf (labels ++ more.take j)), ⟨n, home⟩) := by
  induction more generalizing labels with
  | nil => rfl
  | cons l more ih =>
    rw [lineDefinitions, ← scopeOf_concat, ih, List.zipIdx_cons, List.map_cons, Nat.zero_add,
      List.zipIdx_succ, List.map_map]
    simp [List.append_assoc, Function.comp_def]

/-- **What a pass collects**: the definitions of the labels in their places. -/
theorem definitions_eq_sites (ps : List ParsedLine) :
    definitions {} 1 ps = (sites ps).map (·.definition ps) := by
  induction ps using List.reverseRecOn with
  | nil => rfl
  | append_singleton ps p ih =>
    have hold : (sites ps).map (·.definition (ps ++ [p])) = (sites ps).map (·.definition ps) :=
      List.map_congr_left fun s hs => LabelSite.definition_concat (mem_sites.1 hs) p
    rw [definitions_append, ih, foldl_placeAfter, sites_concat, List.map_append, hold, definitions,
      definitions, List.append_nil, lineDefinitions_eq, List.map_map]
    congr 1
    refine List.map_congr_left ?_
    rintro ⟨l, j⟩ -
    simp [LabelSite.definition, LabelSite.name, LabelSite.scope, LabelSite.before, LabelSite.home,
      Nat.add_comm]

theorem mem_definitions_iff {ps : List ParsedLine} {d : Text × LabelInfo} :
    d ∈ definitions {} 1 ps ↔ ∃ s : LabelSite, s.In ps ∧ d = s.definition ps := by
  rw [definitions_eq_sites, List.mem_map]
  simp only [mem_sites, eq_comm]

theorem nodup_definitions_iff {ps : List ParsedLine} :
    ((definitions {} 1 ps).map (·.1)).Nodup ↔
      ∀ s s' : LabelSite, s.In ps → s'.In ps → s.name ps = s'.name ps → s = s' := by
  rw [definitions_eq_sites, List.map_map, List.nodup_map_iff_inj_on (nodup_sites ps)]
  simp only [mem_sites]
  exact ⟨fun h s s' hs hs' he => h s hs s' hs' he, fun h s hs s' hs' he => h s s' hs hs' he⟩

/-! ## Uses by place -/

theorem namesSymbols_iff {p : ParsedLine} :
    namesSymbols p ↔ p.mnemonic ∉ silentMnemonics ∧ p.mnemonic ≠ [] := by
  simp only [namesSymbols, silentMnemonics, List.mem_cons, List.not_mem_nil, or_false, not_or, ne_eq]
  constructor
  · rintro ⟨hs, hn, he, hd, hb⟩
    exact ⟨⟨hs, he, hd, hb⟩, hn⟩
  · rintro ⟨⟨hs, he, hd, hb⟩, hn⟩
    exact ⟨hs, hn, he, hd, hb⟩

/-- What the operands of the last line name. -/
theorem mem_lineUses_iff {ps : List ParsedLine} {p : ParsedLine}
    (hp : p.mnemonic = [] → p.operands = []) {x : Use} :
    x ∈ lineUses ⟨homeOf ps, scopeOf (labelsOf ps)⟩ (1 + ps.length) p ↔
      ∃ u : SymbolUse, u.In (ps ++ [p]) ∧ u.line = ps.length ∧
        x = ⟨u.name (ps ++ [p]), u.line + 1, u.home (ps ++ [p])⟩ := by
  have hlabels : labelsOf (ps ++ [p]) = labelsOf ps ++ p.labels := by simp [labelsOf]
  have hname (symbol : Text) : SymbolUse.name ⟨ps.length, symbol⟩ (ps ++ [p])
      = qualify symbol (p.labels.foldl scopeAfter (scopeOf (labelsOf ps))) := by
    rw [SymbolUse.name, SymbolUse.scope, List.take_of_length_le (by simp), hlabels,
      foldl_scopeAfter_scopeOf]
  have hhome (symbol : Text) : SymbolUse.home ⟨ps.length, symbol⟩ (ps ++ [p]) = homeOf ps := by
    rw [SymbolUse.home, List.take_left]
  constructor
  · intro hx
    unfold lineUses at hx
    split at hx
    · rename_i hnames
      obtain ⟨symbol, hs, rfl⟩ := List.mem_map.1 hx
      obtain ⟨o, ho, hs⟩ := List.mem_flatMap.1 hs
      refine ⟨⟨ps.length, symbol⟩, ⟨p, by simp, (namesSymbols_iff.1 hnames).1, o, ho, hs⟩, rfl, ?_⟩
      rw [hname, hhome, Nat.add_comm]
    · cases hx
  · rintro ⟨⟨line, symbol⟩, ⟨q, hq, hm, o, ho, hs⟩, hline, rfl⟩
    dsimp only at hline hq hs
    subst hline
    obtain rfl : p = q := by simpa using hq
    have hne : p.mnemonic ≠ [] := fun he => by
      rw [hp he] at ho
      cases ho
    rw [lineUses, if_pos (namesSymbols_iff.2 ⟨hm, hne⟩), hname, hhome, List.mem_map]
    exact ⟨symbol, List.mem_flatMap.2 ⟨o, ho, hs⟩, by rw [Nat.add_comm]⟩

theorem SymbolUse.in_concat_iff {u : SymbolUse} {ps : List ParsedLine} (h : u.line < ps.length)
    (p : ParsedLine) : u.In (ps ++ [p]) ↔ u.In ps := by
  unfold SymbolUse.In
  rw [List.getElem?_append_left h]

theorem SymbolUse.line_lt {u : SymbolUse} {ps : List ParsedLine} (h : u.In ps) :
    u.line < ps.length := by
  obtain ⟨q, hq, -⟩ := h
  exact (List.getElem?_eq_some_iff.1 hq).1

/-- **What a pass looks up**: the symbols in their places. -/
theorem mem_uses_iff {ps : List ParsedLine} (hps : ∀ p ∈ ps, p.mnemonic = [] → p.operands = [])
    {x : Use} : x ∈ uses {} 1 ps ↔
      ∃ u : SymbolUse, u.In ps ∧ x = ⟨u.name ps, u.line + 1, u.home ps⟩ := by
  induction ps using List.reverseRecOn with
  | nil => simp [uses, SymbolUse.In]
  | append_singleton ps p ih =>
    obtain ⟨hps, hp⟩ := List.forall_mem_append.1 hps
    have hold (u : SymbolUse) (hlt : u.line < ps.length) :
        u.name (ps ++ [p]) = u.name ps ∧ u.home (ps ++ [p]) = u.home ps := by
      rw [SymbolUse.name, SymbolUse.scope, List.take_append_of_le_length hlt, SymbolUse.home,
        List.take_append_of_le_length (Nat.le_of_lt hlt)]
      exact ⟨rfl, rfl⟩
    rw [uses_append, foldl_placeAfter, uses, uses, List.append_nil, List.mem_append, ih hps,
      mem_lineUses_iff (hp p (by simp))]
    constructor
    · rintro (⟨u, hu, rfl⟩ | ⟨u, hu, -, rfl⟩)
      · have hlt := SymbolUse.line_lt hu
        exact ⟨u, (SymbolUse.in_concat_iff hlt p).2 hu, by rw [(hold u hlt).1, (hold u hlt).2]⟩
      · exact ⟨u, hu, rfl⟩
    · rintro ⟨u, hu, rfl⟩
      have hle : u.line < ps.length + 1 := by simpa using SymbolUse.line_lt hu
      rcases Nat.lt_succ_iff_lt_or_eq.1 hle with hlt | heq
      · exact .inl ⟨u, (SymbolUse.in_concat_iff hlt p).1 hu, by rw [(hold u hlt).1, (hold u hlt).2]⟩
      · exact .inr ⟨u, hu, heq, rfl⟩

theorem exists_sectionOf_iff {p : ParsedLine} : (∃ s, Verify.sectionOf p 0 = .ok s) ↔
    ∃ name s, p.operands = [name] ∧ s ∈ [Section.rodata, .bss, .text] ∧
      foldsTo name s.name = true := by
  simp only [sectionOf_eq_ok_iff, ← Option.isSome_iff_exists]
  unfold namedSection?
  match p.operands with
  | [] => simp
  | [name] =>
    rw [List.find?_isSome]
    constructor
    · rintro ⟨s, hs, hf⟩
      exact ⟨name, s, rfl, hs, hf⟩
    · rintro ⟨name', s, he, hs, hf⟩
      cases he
      exact ⟨s, hs, hf⟩
  | _ :: _ :: _ => simp

/-- Lines hold together in their places when they do along the passes. -/
theorem consistent_iff_wellFormed {ps : List ParsedLine}
    (hps : ∀ p ∈ ps, p.mnemonic = [] → p.operands = []) : Consistent ps ↔ WellFormed ps := by
  constructor
  · intro h
    refine ⟨fun p hp hm => exists_sectionOf_iff.1 (h.sections p hp hm),
      nodup_definitions_iff.1 h.once, fun u hu => ?_, ?_⟩
    · obtain ⟨d, hd, hk⟩ := h.defined _ ((mem_uses_iff hps).2 ⟨u, hu, rfl⟩)
      obtain ⟨s, hs, rfl⟩ := mem_definitions_iff.1 hd
      exact ⟨s, hs, hk⟩
    · intro u s hu hs hk hhome hdata
      have hle := h.ordered _ ((mem_uses_iff hps).2 ⟨u, hu, rfl⟩) _
        (mem_definitions_iff.2 ⟨s, hs, rfl⟩) hk hhome ((homeOf_ne_text_iff _).2 hdata)
      exact Nat.le_of_succ_le_succ hle
  · intro h
    refine ⟨fun p hp hm => exists_sectionOf_iff.2 (h.sections p hp hm),
      nodup_definitions_iff.2 h.once, fun x hx => ?_, ?_⟩
    · obtain ⟨u, hu, rfl⟩ := (mem_uses_iff hps).1 hx
      obtain ⟨s, hs, hk⟩ := h.defined u hu
      exact ⟨_, mem_definitions_iff.2 ⟨s, hs, rfl⟩, hk⟩
    · intro x hx d hd hk hhome hdata
      obtain ⟨u, hu, rfl⟩ := (mem_uses_iff hps).1 hx
      obtain ⟨s, hs, rfl⟩ := mem_definitions_iff.1 hd
      exact Nat.succ_le_succ (h.ordered u s hu hs hk hhome ((homeOf_ne_text_iff _).1 hdata))

/-! ## What the lines of a text are like -/

theorem upper_ne_nil {t : Text} (h : t.isIdentifier = true) : upper t ≠ [] := by
  obtain ⟨c, cs, rfl, -, -⟩ := isIdentifier_iff.1 h
  rw [upper_ofChars, List.map_cons, ofChars_cons]
  exact List.append_ne_nil_of_left_ne_nil (Utf8.encode_ne_nil _) _

/-- What every line that is read has: labels that may be labels, and operands only behind a
mnemonic. -/
structure Ordinary (p : ParsedLine) : Prop where
  labels : ∀ l ∈ p.labels, isLabel l = true
  operands : p.mnemonic = [] → p.operands = []

theorem ordinary_of_instruction {n : Nat} {labels : List Text} {line : Text} {p : ParsedLine}
    (hl : ∀ l ∈ labels, isLabel l = true) (h : instruction n labels line = .ok p) : Ordinary p := by
  unfold instruction at h
  dsimp only at h
  split at h
  · cases h
  · rename_i hm
    cases h
    refine ⟨hl, fun he => absurd he (upper_ne_nil ?_)⟩
    simpa using hm

theorem ordinary_of_labelled {n : Nat} {labels : List Text} {line : Text} {p : ParsedLine}
    (hl : ∀ l ∈ labels, isLabel l = true) (h : labelled n labels line = .ok p) : Ordinary p := by
  fun_induction labelled n labels line with
  | case1 labels line hnone => exact ordinary_of_instruction hl h
  | case2 => cases h
  | case3 labels line label rest hlead hlabel hrest =>
    cases h
    refine ⟨List.forall_mem_append.2 ⟨hl, ?_⟩, fun _ => rfl⟩
    simpa using hlabel
  | case4 labels line label rest hlead hlabel hrest ih =>
    refine ih (List.forall_mem_append.2 ⟨hl, ?_⟩) h
    simpa using hlabel

theorem ordinary_of_parse {raw : Text} {n : Nat} {p : ParsedLine} (h : parse raw n = .ok p) :
    Ordinary p := by
  unfold parse at h
  dsimp only at h
  split at h
  · cases h
    exact ⟨by simp, fun _ => rfl⟩
  · split at h
    · rename_i hd
      cases h
      have hne : [] ∉ directives := by decide
      refine ⟨by simp, fun he => absurd ?_ hne⟩
      rw [← show upper _ = [] from he]
      simpa using hd
    · exact ordinary_of_labelled (by simp) h

theorem ordinary_of_readAs {raws : List Text} {ps : List ParsedLine} (h : ReadAs raws ps) :
    ∀ p ∈ ps, Ordinary p := by
  intro p hp
  have hmem : Except.ok p ∈ ps.map (Except.ok (ε := VerifyFault)) := List.mem_map_of_mem hp
  rw [← show raws.map (parse · 0) = _ from h] at hmem
  obtain ⟨raw, -, hraw⟩ := List.mem_map.1 hmem
  exact ordinary_of_parse hraw

/-! ## Full names -/

theorem isLocal_of_isIdentifier {l : Text} (h : l.isIdentifier = true) : isLocal l = false := by
  have hhead : l.head? ≠ some (byte '.') := fun hd =>
    dot_notMem_of_isIdentifier h (List.mem_of_head? hd)
  simp [isLocal, hhead]

/-- A label is an identifier, and a local one has a dot in front. -/
theorem isLocal_cases {l : Text} (h : isLabel l = true) :
    isLocal l = false ∧ l.isIdentifier = true ∨
      isLocal l = true ∧ ∃ u : Text, l = byte '.' :: u ∧ u.isIdentifier = true := by
  rcases isLabel_cases h with hid | ⟨u, rfl, hu⟩
  · exact .inl ⟨isLocal_of_isIdentifier hid, hid⟩
  · exact .inr ⟨by simp [isLocal], u, rfl, hu⟩

/-- **Full names tell labels and scopes apart**: no local label meets one that is not, or a local one
of another scope. -/
theorem qualify_inj {l l' s s' : Text} (hl : isLabel l = true) (hl' : isLabel l' = true)
    (hs : byte '.' ∉ s) (hs' : byte '.' ∉ s') (h : qualify l s = qualify l' s') :
    l = l' ∧ (isLocal l = true → s = s') := by
  have hglobal {l s : Text} (hloc : isLocal l = false) : qualify l s = l := by
    simp only [isLocal, decide_eq_false_iff_not] at hloc
    rw [qualify, if_neg hloc]
  have hlocal (s u : Text) : qualify (byte '.' :: u) s = s ++ byte '.' :: u := by simp [qualify]
  rcases isLocal_cases hl with ⟨hloc, hid⟩ | ⟨hloc, u, rfl, hu⟩
  · rw [hglobal hloc] at h
    rcases isLocal_cases hl' with ⟨hloc', -⟩ | ⟨-, u', rfl, -⟩
    · rw [hglobal hloc'] at h
      exact ⟨h, fun ht => by simp [hloc] at ht⟩
    · rw [hlocal] at h
      exact absurd (by simp [h]) (dot_notMem_of_isIdentifier hid)
  · rw [hlocal] at h
    rcases isLocal_cases hl' with ⟨hloc', hid'⟩ | ⟨-, u', rfl, hu'⟩
    · rw [hglobal hloc'] at h
      exact absurd (by simp [← h]) (dot_notMem_of_isIdentifier hid')
    · -- a dot stands only where the scope ends
      rw [hlocal] at h
      have hparts := congrArg (Text.split (byte '.')) h
      rw [split_append, split_append, split_of_notMem hs, split_of_notMem hs',
        split_of_notMem (dot_notMem_of_isIdentifier hu),
        split_of_notMem (dot_notMem_of_isIdentifier hu')] at hparts
      simp only [List.cons_append, List.nil_append, List.cons.injEq, and_true] at hparts
      exact ⟨by rw [hparts.2], fun _ => hparts.1⟩

theorem dot_notMem_scopeOf {labels : List Text} (h : ∀ l ∈ labels, isLabel l = true) :
    byte '.' ∉ scopeOf labels := by
  unfold scopeOf
  cases hlast : (labels.filter (!isLocal ·)).getLast? with
  | none => simp
  | some l =>
    obtain ⟨hl, hloc⟩ := List.mem_filter.1 (List.mem_of_getLast? hlast)
    rcases isLocal_cases (h l hl) with ⟨-, hid⟩ | ⟨hloc', -⟩
    · exact dot_notMem_of_isIdentifier hid
    · simp [hloc'] at hloc

/-- The label or symbol `l` stands in the scope `s` somewhere in the lines. -/
inductive Occurs (ps : List ParsedLine) : Text → Text → Prop where
  | label (site : LabelSite) : site.In ps → Occurs ps site.label (site.scope ps)
  | symbol (u : SymbolUse) : u.In ps → Occurs ps u.symbol (u.scope ps)

theorem isLabel_of_mem_references {o symbol : Text} (h : symbol ∈ references o) :
    isLabel symbol = true := by
  have := (List.mem_filter.1 h).2
  simp only [Bool.and_eq_true] at this
  exact this.2

theorem Occurs.clear {ps : List ParsedLine} (hps : ∀ p ∈ ps, Ordinary p) {l s : Text}
    (h : Occurs ps l s) : isLabel l = true ∧ byte '.' ∉ s := by
  have hlabels {qs : List ParsedLine} (hqs : qs ⊆ ps) : ∀ l ∈ labelsOf qs, isLabel l = true := by
    intro l hl
    obtain ⟨q, hq, hl⟩ := List.mem_flatMap.1 hl
    exact (hps q (hqs hq)).labels l hl
  cases h with
  | label site hin =>
    obtain ⟨p, hp, hl⟩ := hin
    have hp' := List.mem_of_getElem? hp
    refine ⟨(hps p hp').labels _ (List.mem_of_getElem? hl), dot_notMem_scopeOf ?_⟩
    refine List.forall_mem_append.2 ⟨hlabels (List.take_subset _ _), fun l hl => ?_⟩
    rw [hp] at hl
    exact (hps p hp').labels l (List.mem_of_mem_take hl)
  | symbol u hin =>
    obtain ⟨p, -, -, o, -, hs⟩ := hin
    exact ⟨isLabel_of_mem_references hs, dot_notMem_scopeOf (hlabels (List.take_subset _ _))⟩

/-! ## Acceptance -/

/-- **The texts that a fresh verifier accepts** are those whose lines can all be read and are well-formed
in their labels and symbols. Full names are unambiguous: two labels or symbols of a text with one full
name are the same word, in the same scope if it is local. -/
theorem verify_iff_wellFormed (code : Text) :
    ((Verifier.empty.verify code).2 = none ↔
      ∃ ps, ReadAs (textLines code) ps ∧ WellFormed ps) ∧
    ∀ ps, ReadAs (textLines code) ps → ∀ l s l' s', Occurs ps l s → Occurs ps l' s' →
      qualify l s = qualify l' s' → l = l' ∧ (isLocal l = true → s = s') := by
  constructor
  · refine (verify_eq_none_iff code).trans (exists_congr fun ps => and_congr_right fun hr => ?_)
    exact consistent_iff_wellFormed fun p hp => (ordinary_of_readAs hr p hp).operands
  · intro ps hr l s l' s' h h' he
    obtain ⟨hl, hs⟩ := h.clear (ordinary_of_readAs hr)
    obtain ⟨hl', hs'⟩ := h'.clear (ordinary_of_readAs hr)
    exact qualify_inj hl hl' hs hs' he

end StackLang.Assembly
