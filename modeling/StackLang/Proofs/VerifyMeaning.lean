import Mathlib.Data.List.Nodup
import StackLang.Assembly.Verify

/-!
# What the check of an assembly text means

The verifier goes twice over the lines of a text. What it accepts can be said without its state: the
definitions and the uses of a text are lists, told from its parsed lines alone.

- `definitions`, `uses`: the labels that lines define and the symbols that their operands name, by
  full name, line and section.
- `Consistent`: sections are known, no name is defined twice, every name that is used is defined,
  and code uses no data that is declared on a later line.
- `ConsistentWith`: the same beside labels that are known already.
- `verify_with_eq_none_iff`, `verify_eq_none_iff`: the texts that are accepted.
-/

set_option autoImplicit false

namespace StackLang.Assembly

namespace Verify

/-! ## Lines do not depend on their numbers -/

theorem instruction_lineNo {n : Nat} {labels : List Text} {line : Text} {p : ParsedLine}
    (h : instruction n labels line = .ok p) (m : Nat) : instruction m labels line = .ok p := by
  unfold instruction at h ⊢
  dsimp only at h ⊢
  split at h
  · cases h
  · rename_i hm
    rw [if_neg hm]
    exact h

theorem labelled_lineNo {n : Nat} {labels : List Text} {line : Text} {p : ParsedLine}
    (h : labelled n labels line = .ok p) (m : Nat) : labelled m labels line = .ok p := by
  fun_induction labelled n labels line with
  | case1 labels line hl =>
    unfold labelled
    split
    · exact instruction_lineNo h m
    · simp_all
  | case2 => cases h
  | case3 labels line label rest hl hlab hr =>
    unfold labelled
    split
    · simp_all
    · simp_all
  | case4 labels line label rest hl hlab hr ih =>
    unfold labelled
    split
    · simp_all
    · simp_all

theorem parse_lineNo {raw : Text} {n : Nat} {p : ParsedLine} (h : parse raw n = .ok p) (m : Nat) :
    parse raw m = .ok p := by
  unfold parse at h ⊢
  dsimp only at h ⊢
  split
  · rename_i hf
    simpa [hf] using h
  · rename_i first rest hf
    simp only [hf] at h
    split at h
    · rename_i hd
      rw [if_pos hd]
      exact h
    · rename_i hd
      rw [if_neg hd]
      exact labelled_lineNo h m

theorem sectionOf_lineNo {p : ParsedLine} {n : Nat} {s : Section} (h : sectionOf p n = .ok s)
    (m : Nat) : sectionOf p m = .ok s := by
  unfold sectionOf at h ⊢
  split at h
  · split at h
    · exact h
    · cases h
  · cases h

end Verify

open Verify Verifier

/-! ## Definitions and uses -/

/-- What the labels of one line define. -/
def lineDefinitions (place : Place) (line : Nat) : List Text → List (Text × LabelInfo)
  | [] => []
  | l :: ls =>
    (qualify l place.scope, ⟨line, place.home⟩)
      :: lineDefinitions { place with scope := scopeAfter place.scope l } line ls

/-- The section after a line. -/
def homeAfter (home : Section) (p : ParsedLine) : Section :=
  if p.mnemonic = "SECTION" then
    match sectionOf p 0 with
    | .ok s => s
    | .error _ => .text
  else home

/-- The place after a line. -/
def placeAfter (place : Place) (p : ParsedLine) : Place :=
  ⟨homeAfter place.home p, p.labels.foldl scopeAfter place.scope⟩

/-- The definitions of lines, the first of which has the number `line`. -/
def definitions (place : Place) (line : Nat) : List ParsedLine → List (Text × LabelInfo)
  | [] => []
  | p :: ps => lineDefinitions place line p.labels ++ definitions (placeAfter place p) (line + 1) ps

/-- A symbol that an operand names: its full name, its line and the section there. -/
structure Use where
  key : Text
  line : Nat
  home : Section

/-- Whether the operands of a line name symbols. -/
def namesSymbols (p : ParsedLine) : Prop :=
  p.mnemonic ≠ "SECTION" ∧ p.mnemonic ≠ [] ∧ p.mnemonic ≠ "EXTERN" ∧ p.mnemonic ≠ "DEFAULT" ∧
    p.mnemonic ≠ "BITS"

instance (p : ParsedLine) : Decidable (namesSymbols p) := inferInstanceAs (Decidable (_ ∧ _))

/-- What the operands of one line name. -/
def lineUses (place : Place) (line : Nat) (p : ParsedLine) : List Use :=
  if namesSymbols p then
    (p.operands.flatMap references).map fun ref =>
      ⟨qualify ref (p.labels.foldl scopeAfter place.scope), line, place.home⟩
  else []

/-- The uses of lines, the first of which has the number `line`. -/
def uses (place : Place) (line : Nat) : List ParsedLine → List Use
  | [] => []
  | p :: ps => lineUses place line p ++ uses (placeAfter place p) (line + 1) ps

/-- Lines that hold together. -/
structure Consistent (ps : List ParsedLine) : Prop where
  sections : ∀ p ∈ ps, p.mnemonic = "SECTION" → ∃ s, sectionOf p 0 = .ok s
  once : ((definitions {} 1 ps).map (·.1)).Nodup
  defined : ∀ u ∈ uses {} 1 ps, ∃ d ∈ definitions {} 1 ps, d.1 = u.key
  ordered : ∀ u ∈ uses {} 1 ps, ∀ d ∈ definitions {} 1 ps, d.1 = u.key →
    u.home = .text → d.2.home ≠ .text → d.2.line ≤ u.line

/-- The names of labels. -/
def keys (labels : List (Text × LabelInfo)) : List Text := labels.map (·.1)

/-- Lines that hold together beside labels that are known already. -/
structure ConsistentWith (old : List (Text × LabelInfo)) (ps : List ParsedLine) : Prop where
  sections : ∀ p ∈ ps, p.mnemonic = "SECTION" → ∃ s, sectionOf p 0 = .ok s
  once : (keys (definitions {} 1 ps ++ old)).Nodup
  defined : ∀ u ∈ uses {} 1 ps, ∃ d ∈ definitions {} 1 ps ++ old, d.1 = u.key
  ordered : ∀ u ∈ uses {} 1 ps, ∀ d ∈ definitions {} 1 ps ++ old, d.1 = u.key →
    u.home = .text → d.2.home ≠ .text → d.2.line ≤ u.line

theorem consistentWith_nil {ps : List ParsedLine} : ConsistentWith [] ps ↔ Consistent ps := by
  constructor
  · rintro ⟨hs, hn, hd, ho⟩
    simp only [List.append_nil] at hn hd ho
    exact ⟨hs, hn, hd, ho⟩
  · rintro ⟨hs, hn, hd, ho⟩
    refine ⟨hs, ?_, ?_, ?_⟩
    all_goals
      rw [List.append_nil]
      assumption

/-- The lines of a text. -/
def textLines (code : Text) : List Text := Text.split (Text.byte '\n') code

/-- The lines `raws` are read as `ps`. -/
def ReadAs (raws : List Text) (ps : List ParsedLine) : Prop :=
  raws.map (fun raw => parse raw 0) = ps.map .ok

theorem readAs_cons {raw : Text} {raws : List Text} {ps : List ParsedLine} :
    ReadAs (raw :: raws) ps ↔ ∃ p ps', ps = p :: ps' ∧ parse raw 0 = .ok p ∧ ReadAs raws ps' := by
  constructor
  · intro h
    cases ps with
    | nil => cases h
    | cons p ps' =>
      simp only [ReadAs, List.map_cons, List.cons.injEq] at h
      exact ⟨p, ps', rfl, h.1, h.2⟩
  · rintro ⟨p, ps', rfl, hp, h⟩
    simp only [ReadAs, List.map_cons, hp]
    rw [h]

theorem readAs_nil {ps : List ParsedLine} : ReadAs [] ps ↔ ps = [] := by
  cases ps <;> simp [ReadAs]

/-! ## Collecting -/

theorem lookup_eq_none_of_nodup {labels : List (Text × LabelInfo)} {key : Text} {info : LabelInfo}
    (h : (keys ((key, info) :: labels)).Nodup) : labels.lookup key = none := by
  rw [List.lookup_eq_none_iff]
  intro d hd
  have hne : key ≠ d.1 := by
    rintro rfl
    exact (List.nodup_cons.1 h).1 (List.mem_map.2 ⟨d, hd, rfl⟩)
  simpa using hne

/-- Of labels with different names, the lookup finds each. -/
theorem lookup_eq_some_iff_mem {labels : List (Text × LabelInfo)} (h : (keys labels).Nodup)
    {key : Text} {info : LabelInfo} : labels.lookup key = some info ↔ (key, info) ∈ labels := by
  induction labels with
  | nil => simp
  | cons d labels ih =>
    obtain ⟨k, i⟩ := d
    have hcons := List.nodup_cons.1 h
    rw [List.lookup_cons, List.mem_cons, Prod.mk.injEq]
    by_cases hk : key = k
    · subst hk
      have hno : (key, info) ∉ labels := fun hm => hcons.1 (List.mem_map.2 ⟨_, hm, rfl⟩)
      simp [hno, eq_comm]
    · have hf : (key == k) = false := by simpa using hk
      rw [hf, ih hcons.2]
      simp [hk]

section
variable {v : Verifier} {place : Place} {line : Nat} {labels : List Text}

theorem define_of_nodup (h : (keys ((lineDefinitions place line labels).reverse ++ v.labels)).Nodup) :
    v.define place line labels = (⟨(lineDefinitions place line labels).reverse ++ v.labels⟩,
      .ok { place with scope := labels.foldl scopeAfter place.scope }) := by
  induction labels generalizing v place with
  | nil => rfl
  | cons l ls ih =>
    simp only [lineDefinitions, List.reverse_cons, List.append_assoc, List.singleton_append] at h ⊢
    have hkey : (keys ((qualify l place.scope, ⟨line, place.home⟩) :: v.labels)).Nodup :=
      h.sublist (by simp [keys])
    rw [define]
    simp only [lookup_eq_none_of_nodup hkey]
    exact ih h

theorem nodup_of_define {v' : Verifier} {place' : Place} (hv : (keys v.labels).Nodup)
    (h : v.define place line labels = (v', .ok place')) :
    (keys ((lineDefinitions place line labels).reverse ++ v.labels)).Nodup := by
  induction labels generalizing v place with
  | nil => exact hv
  | cons l ls ih =>
    rw [define] at h
    split at h
    · cases h
    · rename_i hlook
      simp only [lineDefinitions, List.reverse_cons, List.append_assoc, List.singleton_append]
      refine ih ?_ h
      refine List.nodup_cons.2 ⟨fun hm => ?_, hv⟩
      obtain ⟨d, hd, hk⟩ := List.mem_map.1 hm
      rw [List.lookup_eq_none_iff] at hlook
      simpa [hk] using hlook d hd

end

theorem homeAfter_section {home s : Section} {p : ParsedLine} (hp : p.mnemonic = "SECTION")
    (hs : sectionOf p 0 = .ok s) : homeAfter home p = s := by
  simp [homeAfter, hp, hs]

theorem homeAfter_other {home : Section} {p : ParsedLine} (hp : p.mnemonic ≠ "SECTION") :
    homeAfter home p = home := by
  simp [homeAfter, hp]

section
variable {v : Verifier} {place : Place} {line : Nat} {raws : List Text} {ps : List ParsedLine}

theorem collect_of_nodup (hr : ReadAs raws ps)
    (hs : ∀ p ∈ ps, p.mnemonic = "SECTION" → ∃ s, sectionOf p 0 = .ok s)
    (hn : (keys ((definitions place line ps).reverse ++ v.labels)).Nodup) :
    v.collect place line raws = (⟨(definitions place line ps).reverse ++ v.labels⟩, none) := by
  induction raws generalizing v place line ps with
  | nil =>
    rw [readAs_nil] at hr
    subst hr
    rfl
  | cons raw raws ih =>
    obtain ⟨p, ps, rfl, hp, hr⟩ := readAs_cons.1 hr
    have hs' := fun q hq => hs q (List.mem_cons_of_mem p hq)
    simp only [definitions, List.reverse_append, List.append_assoc] at hn ⊢
    have hdef : v.define place line p.labels = _ :=
      define_of_nodup (hn.sublist (by simp [keys]))
    have hrec := ih (v := ⟨(lineDefinitions place line p.labels).reverse ++ v.labels⟩) hr hs' hn
    rw [collect]
    simp only [parse_lineNo hp line, hdef]
    split
    · rename_i hm
      obtain ⟨s, hsec⟩ := hs p (by simp) hm
      simp only [sectionOf_lineNo hsec line]
      rw [← hrec, placeAfter, homeAfter_section hm hsec]
    · rename_i hm
      rw [← hrec, placeAfter, homeAfter_other hm]

theorem readAs_of_collect {v' : Verifier} (hv : (keys v.labels).Nodup)
    (h : v.collect place line raws = (v', none)) :
    ∃ ps, ReadAs raws ps ∧ (∀ p ∈ ps, p.mnemonic = "SECTION" → ∃ s, sectionOf p 0 = .ok s) ∧
      (keys ((definitions place line ps).reverse ++ v.labels)).Nodup := by
  induction raws generalizing v place line with
  | nil => exact ⟨[], readAs_nil.2 rfl, by simp, hv⟩
  | cons raw raws ih =>
    rw [collect] at h
    split at h
    · cases h
    rename_i p hp
    split at h
    · cases h
    rename_i v₁ place₁ hdef
    have hn := nodup_of_define hv hdef
    rw [define_of_nodup hn] at hdef
    cases hdef
    split at h
    · rename_i hm
      split at h
      · cases h
      rename_i s hsec
      have hsec := sectionOf_lineNo hsec 0
      obtain ⟨ps, hr, hs, hn'⟩ := ih hn h
      refine ⟨p :: ps, readAs_cons.2 ⟨p, ps, rfl, parse_lineNo hp 0, hr⟩, ?_, ?_⟩
      · exact List.forall_mem_cons.2 ⟨fun _ => ⟨s, hsec⟩, hs⟩
      · simpa [definitions, placeAfter, homeAfter_section hm hsec] using hn'
    · rename_i hm
      obtain ⟨ps, hr, hs, hn'⟩ := ih hn h
      refine ⟨p :: ps, readAs_cons.2 ⟨p, ps, rfl, parse_lineNo hp 0, hr⟩, ?_, ?_⟩
      · exact List.forall_mem_cons.2 ⟨fun he => absurd he hm, hs⟩
      · simpa [definitions, placeAfter, homeAfter_other hm] using hn'

end

/-! ## Looking up -/

/-- The use of a name that is defined, and not too late. -/
def Meets (v : Verifier) (u : Use) : Prop :=
  ∃ info, v.labels.lookup u.key = some info ∧
    ¬ (u.home = .text ∧ info.home ≠ .text ∧ u.line < info.line)

theorem checkReference_eq_none_iff {v : Verifier} {place : Place} {line : Nat} {ref : Text} :
    v.checkReference place line ref = none ↔
      Meets v ⟨qualify ref place.scope, line, place.home⟩ := by
  unfold checkReference Meets
  dsimp only
  split
  · rename_i hn
    simp [hn]
  · rename_i info hs
    simp only [hs, Option.some.injEq, exists_eq_left', ite_eq_right_iff, reduceCtorEq]

theorem lookUp_eq_none_iff {v : Verifier} {place : Place} {line : Nat} {raws : List Text}
    {ps : List ParsedLine} (hr : ReadAs raws ps)
    (hs : ∀ p ∈ ps, p.mnemonic = "SECTION" → ∃ s, sectionOf p 0 = .ok s) :
    v.lookUp place line raws = none ↔ ∀ u ∈ uses place line ps, Meets v u := by
  induction raws generalizing place line ps with
  | nil =>
    rw [readAs_nil] at hr
    subst hr
    simp [lookUp, uses]
  | cons raw raws ih =>
    obtain ⟨p, ps, rfl, hp, hr⟩ := readAs_cons.1 hr
    have hs' := fun q hq => hs q (List.mem_cons_of_mem p hq)
    have hrec (home : Section) :
        v.lookUp ⟨home, p.labels.foldl scopeAfter place.scope⟩ (line + 1) raws = none ↔ _ :=
      ih hr hs'
    rw [lookUp, uses, List.forall_mem_append]
    simp only [parse_lineNo hp line]
    by_cases hm : p.mnemonic = "SECTION"
    · obtain ⟨s, hsec⟩ := hs p (by simp) hm
      have hno : lineUses place line p = [] := if_neg fun h => h.1 hm
      rw [if_pos hm, hno, placeAfter, homeAfter_section hm hsec]
      simp only [sectionOf_lineNo hsec line, hrec, List.not_mem_nil, false_implies, implies_true,
        true_and]
    · rw [if_neg hm, placeAfter, homeAfter_other hm]
      by_cases hmn : p.mnemonic = [] ∨ p.mnemonic = "EXTERN" ∨ p.mnemonic = "DEFAULT"
          ∨ p.mnemonic = "BITS"
      · have hno : lineUses place line p = [] :=
          if_neg fun ⟨_, h1, h2, h3, h4⟩ => by simp [h1, h2, h3, h4] at hmn
        rw [if_pos hmn, hno, hrec]
        simp
      · have hyes : namesSymbols p := by
          simp only [not_or] at hmn
          exact ⟨hm, hmn⟩
        rw [if_neg hmn, lineUses, if_pos hyes]
        have hfirst : (p.operands.flatMap references).findSome? (v.checkReference
              { place with scope := p.labels.foldl scopeAfter place.scope } line) = none ↔
            ∀ u ∈ (p.operands.flatMap references).map fun ref =>
              (⟨qualify ref (p.labels.foldl scopeAfter place.scope), line, place.home⟩ : Use),
              Meets v u := by
          rw [List.findSome?_eq_none_iff, List.forall_mem_map]
          simp only [checkReference_eq_none_iff]
        rw [← hfirst, ← hrec]
        cases (p.operands.flatMap references).findSome? (v.checkReference
              { place with scope := p.labels.foldl scopeAfter place.scope } line) with
        | some fault => simp
        | none => simp

/-- The names that a text may use are those of the labels, in no order. -/
theorem meets_iff {labels : List (Text × LabelInfo)} (hn : (keys labels).Nodup) {u : Use} :
    Meets ⟨labels⟩ u ↔ (∃ d ∈ labels, d.1 = u.key) ∧
      ∀ d ∈ labels, d.1 = u.key → u.home = .text → d.2.home ≠ .text → d.2.line ≤ u.line := by
  unfold Meets
  simp only [lookup_eq_some_iff_mem hn]
  constructor
  · rintro ⟨info, hm, hlate⟩
    refine ⟨⟨_, hm, rfl⟩, fun d hd hk hu hh => ?_⟩
    have hd' : d = (u.key, info) := List.inj_on_of_nodup_map hn hd hm hk
    subst hd'
    exact Nat.le_of_not_lt fun hlt => hlate ⟨hu, hh, hlt⟩
  · rintro ⟨⟨d, hd, hk⟩, hall⟩
    have hd' : d = (u.key, d.2) := by rw [← hk]
    refine ⟨d.2, hd' ▸ hd, fun ⟨hu, hh, hlt⟩ => ?_⟩
    exact absurd (hall d hd hk hu hh) (Nat.not_le_of_lt hlt)

/-- New labels are put in front, the last one first. -/
theorem nodup_keys_reverse {ds old : List (Text × LabelInfo)} :
    (keys (ds.reverse ++ old)).Nodup ↔ (keys (ds ++ old)).Nodup :=
  (((List.reverse_perm ds).append_right old).map _).nodup_iff

/-- **The texts that a verifier with labels accepts** are those whose lines can be read and hold together
beside its labels. -/
theorem verify_with_eq_none_iff {v : Verifier} (hv : (keys v.labels).Nodup) (code : Text) :
    (v.verify code).2 = none ↔ ∃ ps, ReadAs (textLines code) ps ∧ ConsistentWith v.labels ps := by
  have hmem (ds : List (Text × LabelInfo)) (d : Text × LabelInfo) :
      d ∈ ds.reverse ++ v.labels ↔ d ∈ ds ++ v.labels := by simp
  unfold Verifier.verify
  dsimp only
  rw [show Text.split (Text.byte '\n') code = textLines code from rfl]
  constructor
  · intro h
    split at h
    · cases h
    rename_i v' hcol
    obtain ⟨ps, hr, hs, hn⟩ := readAs_of_collect hv hcol
    rw [collect_of_nodup hr hs hn] at hcol
    cases hcol
    have hmeets : ∀ u ∈ uses {} 1 ps, _ ∧ _ := fun u hu =>
      (meets_iff hn).1 ((lookUp_eq_none_iff hr hs).1 h u hu)
    simp only [hmem] at hmeets
    exact ⟨ps, hr, hs, nodup_keys_reverse.1 hn, fun u hu => (hmeets u hu).1,
      fun u hu => (hmeets u hu).2⟩
  · rintro ⟨ps, hr, hs, hn, hd, ho⟩
    have hn := nodup_keys_reverse.2 hn
    rw [collect_of_nodup hr hs hn]
    refine (lookUp_eq_none_iff hr hs).2 fun u hu => (meets_iff hn).2 ?_
    simp only [hmem]
    exact ⟨hd u hu, ho u hu⟩

/-- **The texts that are accepted** are those whose lines can be read and hold together. -/
theorem verify_eq_none_iff (code : Text) :
    verify code = none ↔ ∃ ps, ReadAs (textLines code) ps ∧ Consistent ps := by
  simp only [← consistentWith_nil]
  exact verify_with_eq_none_iff (v := Verifier.empty) List.nodup_nil code

end StackLang.Assembly
