import StackLang.Proofs.VerifyMeaning

/-!
# Verifiers that are used again

A verifier does not forget. The labels of a text stay with it after the check, also when the text was
refused: then those in front of the place where the labels were no longer read. The next text is checked
beside these labels, so it may be refused for a label that it defines once, and it may be accepted though
it names what it does not define.

- `ownLabels`, `untilTaken`: the labels that a text defines, and those of them that it leaves behind.
- `kept`, `labels_after`: the labels that a verifier has after a history of texts.
- `Apart`, `verify_of_apart`: a text that meets none of them is checked as if there were none.
- `verdicts_depend_on_kept_labels`: what a verdict and the number of labels depend on.
-/

set_option autoImplicit false

namespace StackLang.Assembly

open Verify Verifier

/-- The verifier after it has checked texts. -/
def Verifier.after (v : Verifier) (history : List Text) : Verifier :=
  history.foldl (fun v code => (v.verify code).1) v

/-! ## One line of the labels -/

/-- What is wrong with the section that a line opens. -/
def sectionFault? (p : ParsedLine) (line : Nat) : Option VerifyFault :=
  if p.mnemonic = "SECTION" then
    match sectionOf p line with
    | .error fault => some fault
    | .ok _ => none
  else none

theorem sectionFault?_lineNo {p : ParsedLine} {n : Nat} (h : sectionFault? p n = none) (m : Nat) :
    sectionFault? p m = none := by
  unfold sectionFault? at h ⊢
  split
  · rename_i hm
    rw [if_pos hm] at h
    cases hs : sectionOf p n with
    | error fault => simp [hs] at h
    | ok s => rw [sectionOf_lineNo hs m]
  · rfl

theorem parse_error_lineNo {raw : Text} {n : Nat} {fault : VerifyFault}
    (h : parse raw n = .error fault) : ∃ fault', parse raw 0 = .error fault' := by
  cases hz : parse raw 0 with
  | error fault' => exact ⟨fault', rfl⟩
  | ok p =>
    rw [parse_lineNo hz n] at h
    cases h

theorem lookup_eq_none_iff_keys {labels : List (Text × LabelInfo)} {key : Text} :
    labels.lookup key = none ↔ key ∉ keys labels := by
  rw [List.lookup_eq_none_iff]
  simp only [keys, List.mem_map, not_exists, not_and, bne_iff_ne, ne_eq]
  exact ⟨fun h d hd hk => h d hd hk.symm, fun h d hd hk => h d hd hk.symm⟩

section
variable {v v' : Verifier} {place place' : Place} {line : Nat}

theorem place_of_define {labels : List Text}
    (h : v.define place line labels = (v', .ok place')) :
    place' = { place with scope := labels.foldl scopeAfter place.scope } := by
  induction labels generalizing v place with
  | nil =>
    cases h
    rfl
  | cons l ls ih =>
    rw [define] at h
    split at h
    · cases h
    · exact ih h

/-- Once the labels of a line are entered, its section decides whether the next line is read. -/
theorem collect_of_define {raw : Text} {p : ParsedLine} (hp : parse raw line = .ok p)
    (hdef : v.define place line p.labels = (v', .ok place')) (raws : List Text) :
    v.collect place line (raw :: raws) =
      match sectionFault? p line with
      | some fault => (v', some fault)
      | none => v'.collect (placeAfter place p) (line + 1) raws := by
  obtain rfl := place_of_define hdef
  rw [collect]
  simp only [hp, hdef, sectionFault?]
  by_cases hm : p.mnemonic = "SECTION"
  · rw [if_pos hm, if_pos hm]
    cases hs : sectionOf p line with
    | error fault => rfl
    | ok s => rw [placeAfter, homeAfter_section hm (sectionOf_lineNo hs 0)]
  · rw [if_neg hm, if_neg hm, placeAfter, homeAfter_other hm]

end

/-! ## What a text leaves behind -/

/-- The lines whose labels are read: up to the first line that cannot be read, and up to one that opens
an unknown section. -/
def reached : List Text → List ParsedLine
  | [] => []
  | raw :: raws =>
    match parse raw 0 with
    | .error _ => []
    | .ok p => p :: if sectionFault? p 0 = none then reached raws else []

/-- The labels that the lines of a text define, as far as they are read. -/
def ownLabels (code : Text) : List (Text × LabelInfo) := definitions {} 1 (reached (textLines code))

/-- The labels in front of the first one whose name is taken, by `taken` or by a label in front of it. -/
def untilTaken (taken : List Text) : List (Text × LabelInfo) → List (Text × LabelInfo)
  | [] => []
  | d :: ds => if d.1 ∈ taken then [] else d :: untilTaken (d.1 :: taken) ds

/-- The labels after one more text. -/
def keep (old : List (Text × LabelInfo)) (code : Text) : List (Text × LabelInfo) :=
  (untilTaken (keys old) (ownLabels code)).reverse ++ old

/-- The labels that a history of texts leaves behind. -/
def kept (history : List Text) : List (Text × LabelInfo) := history.foldl keep []

section
variable {old ds : List (Text × LabelInfo)}

theorem untilTaken_append (h : (keys (ds.reverse ++ old)).Nodup) (es : List (Text × LabelInfo)) :
    untilTaken (keys old) (ds ++ es) = ds ++ untilTaken (keys (ds.reverse ++ old)) es := by
  induction ds generalizing old with
  | nil => rfl
  | cons d ds ih =>
    rw [List.reverse_cons, List.append_assoc] at h ⊢
    have hd : (keys (d :: old)).Nodup := h.sublist (List.Sublist.map _ (List.sublist_append_right ..))
    have hfree : d.1 ∉ keys old := (List.nodup_cons.1 hd).1
    rw [List.cons_append, untilTaken, if_neg hfree]
    exact congrArg (d :: ·) (ih h)

theorem nodup_untilTaken (h : (keys old).Nodup) :
    (keys ((untilTaken (keys old) ds).reverse ++ old)).Nodup := by
  induction ds generalizing old with
  | nil => exact h
  | cons d ds ih =>
    rw [untilTaken]
    split
    · exact h
    · rename_i hfree
      have hd : (keys (d :: old)).Nodup := List.nodup_cons.2 ⟨hfree, h⟩
      rw [List.reverse_cons, List.append_assoc]
      exact ih hd

end

section
variable {v v' : Verifier} {place : Place} {line : Nat}

/-- A line with a label that is taken leaves the labels in front of it, whatever would follow. -/
theorem labels_of_define_error {labels : List Text} {fault : VerifyFault}
    (h : v.define place line labels = (v', .error fault)) (es : List (Text × LabelInfo)) :
    v'.labels
      = (untilTaken (keys v.labels) (lineDefinitions place line labels ++ es)).reverse ++ v.labels := by
  induction labels generalizing v place with
  | nil => cases h
  | cons l ls ih =>
    rw [lineDefinitions, List.cons_append, untilTaken]
    rw [define] at h
    by_cases htaken : qualify l place.scope ∈ keys v.labels
    · rw [if_pos htaken]
      split at h
      · cases h
        rfl
      · rename_i hnone
        exact absurd htaken (lookup_eq_none_iff_keys.1 hnone)
    · rw [lookup_eq_none_iff_keys.2 htaken] at h
      rw [if_neg htaken, List.reverse_cons, List.append_assoc]
      exact ih h

/-- **The labels of a text**, as far as they are read, are put in front of those that are there. -/
theorem labels_collect (hv : (keys v.labels).Nodup) (raws : List Text) :
    (v.collect place line raws).1.labels
      = (untilTaken (keys v.labels) (definitions place line (reached raws))).reverse ++ v.labels := by
  induction raws generalizing v place line with
  | nil => rfl
  | cons raw raws ih =>
    cases hp : parse raw line with
    | error fault =>
      obtain ⟨fault', hz⟩ := parse_error_lineNo hp
      simp only [collect, hp, reached, hz, definitions]
      rfl
    | ok p =>
      simp only [reached, parse_lineNo hp 0, definitions]
      cases hdef : v.define place line p.labels with
      | mk v₁ ending =>
        cases ending with
        | error fault =>
          rw [← labels_of_define_error hdef]
          simp only [collect, hp, hdef]
        | ok place₁ =>
          rw [collect_of_define hp hdef]
          have hn := nodup_of_define hv hdef
          rw [define_of_nodup hn] at hdef
          cases hdef
          rw [untilTaken_append hn, List.reverse_append, List.append_assoc]
          cases hs : sectionFault? p line with
          | some fault =>
            have hz : sectionFault? p 0 ≠ none := fun hz => by
              rw [sectionFault?_lineNo hz line] at hs
              cases hs
            rw [if_neg hz]
            rfl
          | none =>
            rw [if_pos (sectionFault?_lineNo hs 0)]
            exact ih hn

theorem verify_of_refused {code : Text} {fault : VerifyFault}
    (h : v.collect {} 1 (textLines code) = (v', some fault)) : v.verify code = (v', some fault) := by
  unfold Verifier.verify
  dsimp only
  rw [show Text.split (Text.byte '\n') code = textLines code from rfl, h]

theorem verify_of_collected {code : Text} (h : v.collect {} 1 (textLines code) = (v', none)) :
    v.verify code = (v', v'.lookUp {} 1 (textLines code)) := by
  unfold Verifier.verify
  dsimp only
  rw [show Text.split (Text.byte '\n') code = textLines code from rfl, h]

theorem verify_fst (v : Verifier) (code : Text) :
    (v.verify code).1 = (v.collect {} 1 (textLines code)).1 := by
  cases h : v.collect {} 1 (textLines code) with
  | mk v' ending =>
    cases ending with
    | some fault => rw [verify_of_refused h]
    | none => rw [verify_of_collected h]

/-- **The labels after a history**: each text leaves what was read of it. -/
theorem labels_after (hv : (keys v.labels).Nodup) (history : List Text) :
    (v.after history).labels = history.foldl keep v.labels ∧ (keys (v.after history).labels).Nodup := by
  induction history generalizing v with
  | nil => exact ⟨rfl, hv⟩
  | cons code history ih =>
    have hstep : (v.verify code).1.labels = keep v.labels code := by
      rw [verify_fst, labels_collect hv]
      rfl
    have hnodup : (keys (v.verify code).1.labels).Nodup := by
      rw [hstep]
      exact nodup_untilTaken hv
    obtain ⟨hlabels, hn⟩ := ih hnodup
    rw [hstep] at hlabels
    exact ⟨hlabels, hn⟩

end

/-! ## Texts that meet no earlier label -/

/-- A text that neither defines nor names any of some labels. -/
def Apart (old : List (Text × LabelInfo)) (code : Text) : Prop :=
  (∀ d ∈ ownLabels code, d.1 ∉ keys old) ∧
    ∀ u ∈ uses {} 1 (reached (textLines code)), u.key ∉ keys old

instance (old : List (Text × LabelInfo)) (code : Text) : Decidable (Apart old code) :=
  inferInstanceAs (Decidable (_ ∧ _))

/-- A text whose lines can all be read, and open known sections, is read to its end. -/
theorem reached_of_readAs {raws : List Text} {ps : List ParsedLine} (hr : ReadAs raws ps)
    (hs : ∀ p ∈ ps, p.mnemonic = "SECTION" → ∃ s, sectionOf p 0 = .ok s) : reached raws = ps := by
  induction raws generalizing ps with
  | nil => exact (List.map_eq_nil_iff.1 hr.symm).symm
  | cons raw raws ih =>
    obtain ⟨p, ps, rfl, hp, hr⟩ := readAs_cons.1 hr
    obtain ⟨hsection, hs⟩ := List.forall_mem_cons.1 hs
    have hknown : sectionFault? p 0 = none := by
      unfold sectionFault?
      split
      · rename_i hm
        obtain ⟨s, hsec⟩ := hsection hm
        rw [hsec]
      · rfl
    simp only [reached, parse_lineNo hp 0, if_pos hknown, ih hr hs]

/-- A verifier with older labels behind its own. -/
def Verifier.beside (v : Verifier) (old : List (Text × LabelInfo)) : Verifier := ⟨v.labels ++ old⟩

section
variable {v : Verifier} {old : List (Text × LabelInfo)} {place : Place} {line : Nat}

theorem lookup_beside {key : Text} (h : key ∉ keys old) :
    (v.beside old).labels.lookup key = v.labels.lookup key := by
  rw [beside, List.lookup_append, lookup_eq_none_iff_keys.2 h, Option.or_none]

theorem define_beside {labels : List Text}
    (h : ∀ d ∈ lineDefinitions place line labels, d.1 ∉ keys old) :
    (v.beside old).define place line labels =
      ((v.define place line labels).1.beside old, (v.define place line labels).2) := by
  induction labels generalizing v place with
  | nil => rfl
  | cons l ls ih =>
    obtain ⟨hl, hls⟩ := List.forall_mem_cons.1 h
    rw [define, define]
    simp only [lookup_beside hl]
    cases v.labels.lookup (qualify l place.scope) with
    | some first => rfl
    | none => exact ih (v := ⟨(qualify l place.scope, ⟨line, place.home⟩) :: v.labels⟩) hls

/-- Older labels that a text does not define stay behind those of the text. -/
theorem collect_beside {raws : List Text}
    (h : ∀ d ∈ definitions place line (reached raws), d.1 ∉ keys old) :
    (v.beside old).collect place line raws =
      ((v.collect place line raws).1.beside old, (v.collect place line raws).2) := by
  induction raws generalizing v place line with
  | nil => rfl
  | cons raw raws ih =>
    cases hp : parse raw line with
    | error fault => simp only [collect, hp]
    | ok p =>
      simp only [reached, parse_lineNo hp 0, definitions] at h
      obtain ⟨hline, hrest⟩ := List.forall_mem_append.1 h
      have hboth := define_beside (v := v) hline
      cases hdef : v.define place line p.labels with
      | mk v₁ ending =>
        rw [hdef] at hboth
        cases ending with
        | error fault => simp only [collect, hp, hdef, hboth]
        | ok place₁ =>
          rw [collect_of_define hp hdef, collect_of_define hp hboth]
          cases hs : sectionFault? p line with
          | some fault => rfl
          | none =>
            rw [if_pos (sectionFault?_lineNo hs 0)] at hrest
            exact ih hrest

/-- Older labels that a text does not name are not looked up. -/
theorem lookUp_beside {raws : List Text} {ps : List ParsedLine} (hr : ReadAs raws ps)
    (hs : ∀ p ∈ ps, p.mnemonic = "SECTION" → ∃ s, sectionOf p 0 = .ok s)
    (h : ∀ u ∈ uses place line ps, u.key ∉ keys old) :
    (v.beside old).lookUp place line raws = v.lookUp place line raws := by
  induction raws generalizing place line ps with
  | nil => rfl
  | cons raw raws ih =>
    obtain ⟨p, ps, rfl, hp, hr⟩ := readAs_cons.1 hr
    obtain ⟨hsection, hs⟩ := List.forall_mem_cons.1 hs
    obtain ⟨hline, hrest⟩ := List.forall_mem_append.1 h
    have hnext := ih hr hs hrest
    rw [lookUp, lookUp]
    simp only [parse_lineNo hp line]
    by_cases hm : p.mnemonic = "SECTION"
    · obtain ⟨s, hsec⟩ := hsection hm
      rw [placeAfter, homeAfter_section hm hsec] at hnext
      simp only [if_pos hm, sectionOf_lineNo hsec line, hnext]
    · rw [placeAfter, homeAfter_other hm] at hnext
      rw [if_neg hm, if_neg hm, hnext]
      by_cases hmn : p.mnemonic = [] ∨ p.mnemonic = "EXTERN" ∨ p.mnemonic = "DEFAULT"
          ∨ p.mnemonic = "BITS"
      · rw [if_pos hmn, if_pos hmn]
      · have hyes : namesSymbols p := by
          simp only [not_or] at hmn
          exact ⟨hm, hmn⟩
        rw [lineUses, if_pos hyes, List.forall_mem_map] at hline
        have hrefs : ∀ ref ∈ p.operands.flatMap references,
            (v.beside old).checkReference
                { place with scope := p.labels.foldl scopeAfter place.scope } line ref
              = v.checkReference { place with scope := p.labels.foldl scopeAfter place.scope } line ref := by
          intro ref href
          simp only [checkReference, lookup_beside (hline ref href)]
        have hfirst := congrArg List.head? (List.filterMap_congr hrefs)
        rw [List.head?_filterMap, List.head?_filterMap] at hfirst
        rw [if_neg hmn, if_neg hmn, hfirst]

/-- **A text that meets no older label** is checked as if there were none. -/
theorem verify_of_apart {code : Text} (h : Apart old code) :
    ((Verifier.mk old).verify code).2 = verify code := by
  obtain ⟨hdefines, hnames⟩ := h
  have hcollect : (Verifier.mk old).collect {} 1 (textLines code) = _ :=
    collect_beside (v := Verifier.empty) hdefines
  rw [verify]
  cases hcol : Verifier.empty.collect {} 1 (textLines code) with
  | mk v' ending =>
    rw [hcol] at hcollect
    cases ending with
    | some fault => rw [verify_of_refused hcol, verify_of_refused hcollect]
    | none =>
      obtain ⟨ps, hr, hs, -⟩ := readAs_of_collect (v := Verifier.empty) List.nodup_nil hcol
      rw [reached_of_readAs hr hs] at hnames
      rw [verify_of_collected hcol, verify_of_collected hcollect]
      exact lookUp_beside hr hs hnames

end

/-! ## Verdicts -/

section
variable {v : Verifier} {old : List (Text × LabelInfo)} {code : Text}

/-- The labels of a text that is accepted are all read. -/
theorem length_labels_verify (hv : (keys v.labels).Nodup) (h : (v.verify code).2 = none) :
    (v.verify code).1.labels.length = v.labels.length + (ownLabels code).length := by
  obtain ⟨ps, hr, hc⟩ := (verify_with_eq_none_iff hv code).1 h
  rw [verify_fst, collect_of_nodup hr hc.sections (nodup_keys_reverse.2 hc.once), List.length_append,
    List.length_reverse, Nat.add_comm, ownLabels, reached_of_readAs hr hc.sections]

/-- Lines that hold together still do so beside older labels, if they define none of these again. -/
theorem consistentWith_iff_of_consistent (hold : (keys old).Nodup) {ps : List ParsedLine}
    (h : Consistent ps) :
    ConsistentWith old ps ↔ ∀ d ∈ definitions {} 1 ps, d.1 ∉ keys old := by
  constructor
  · intro hc d hd hmem
    have honce := hc.once
    rw [keys, List.map_append] at honce
    exact (List.nodup_append.1 honce).2.2 _ (List.mem_map_of_mem hd) _ hmem rfl
  · intro hnew
    -- a use has its definition in the text, and this name is not an older one
    have hown : ∀ u ∈ uses {} 1 ps, ∀ d ∈ definitions {} 1 ps ++ old, d.1 = u.key →
        d ∈ definitions {} 1 ps := by
      intro u hu d hd hk
      rcases List.mem_append.1 hd with hd | hd
      · exact hd
      · obtain ⟨e, he, hek⟩ := h.defined u hu
        refine absurd ?_ (hnew e he)
        rw [hek, ← hk]
        exact List.mem_map_of_mem hd
    refine ⟨h.sections, ?_, fun u hu => ?_, fun u hu d hd hk => ?_⟩
    · rw [keys, List.map_append]
      refine List.nodup_append.2 ⟨h.once, hold, ?_⟩
      rintro key hkey _ hmem rfl
      obtain ⟨d, hd, rfl⟩ := List.mem_map.1 hkey
      exact hnew d hd hmem
    · obtain ⟨d, hd, hk⟩ := h.defined u hu
      exact ⟨d, List.mem_append_left _ hd, hk⟩
    · exact h.ordered u hu d (hown u hu d hd hk) hk

/-- **A text that is right on its own** is accepted if and only if it defines no older label again. -/
theorem verify_with_eq_none_iff_of_verify (hv : (keys v.labels).Nodup) (h : verify code = none) :
    (v.verify code).2 = none ↔ ∀ d ∈ ownLabels code, d.1 ∉ keys v.labels := by
  obtain ⟨ps, hr, hc⟩ := (verify_eq_none_iff code).1 h
  rw [verify_with_eq_none_iff hv, ownLabels, reached_of_readAs hr hc.sections,
    ← consistentWith_iff_of_consistent hv hc]
  constructor
  · rintro ⟨qs, hq, hcq⟩
    have hsame : reached (textLines code) = qs := reached_of_readAs hq hcq.sections
    rw [reached_of_readAs hr hc.sections] at hsame
    exact hsame ▸ hcq
  · intro hc
    exact ⟨ps, hr, hc⟩

end

/-- **What a verdict depends on.** After any history of texts a verifier has the labels that were read of
them. It accepts a text if and only if its lines can be read and hold together beside these labels, and
then it has as many labels more as the text defines. So a text that meets none of the labels is judged as
by a new verifier, and a text that a new verifier accepts is accepted if and only if it defines none of
them. -/
theorem verdicts_depend_on_kept_labels (history : List Text) (code : Text) :
    let v := Verifier.empty.after history
    v.labels = kept history ∧
    ((v.verify code).2 = none ↔
      ∃ ps, ReadAs (textLines code) ps ∧ ConsistentWith (kept history) ps) ∧
    ((v.verify code).2 = none →
      (v.verify code).1.labels.length = (kept history).length + (ownLabels code).length) ∧
    (Apart (kept history) code → (v.verify code).2 = verify code) ∧
    (verify code = none →
      ((v.verify code).2 = none ↔ ∀ d ∈ ownLabels code, d.1 ∉ keys (kept history))) := by
  intro v
  obtain ⟨hlabels, hnodup⟩ := labels_after (v := Verifier.empty) List.nodup_nil history
  change v.labels = kept history at hlabels
  change (keys v.labels).Nodup at hnodup
  rw [← hlabels]
  exact ⟨rfl, verify_with_eq_none_iff hnodup code, length_labels_verify hnodup, verify_of_apart,
    verify_with_eq_none_iff_of_verify hnodup⟩

/-- After one label, a text with another is accepted, with two labels then. -/
theorem verdicts_depend_on_kept_labels_two :
    Apart (kept ["a:"]) "b: jmp b" ∧ verify "b: jmp b" = none ∧
      ((Verifier.empty.after ["a:"]).verify "b: jmp b").2 = none ∧
      ((Verifier.empty.after ["a:"]).verify "b: jmp b").1.labels.length = 2 := by
  obtain ⟨-, -, hlength, hapart, -⟩ := verdicts_depend_on_kept_labels ["a:"] "b: jmp b"
  have h : Apart (kept ["a:"]) "b: jmp b" := by decide +kernel
  have hnew : verify "b: jmp b" = none := by decide +kernel
  have haccepted := (hapart h).trans hnew
  exact ⟨h, hnew, haccepted, (hlength haccepted).trans (by decide +kernel)⟩

/-- **Labels outlive their text.** The second check of a text with a label refuses it, and a label of an
earlier text stands for one that is not defined. -/
theorem labels_outlive_their_text :
    verify "a:" = none ∧
      ((Verifier.empty.after ["a:"]).verify "a:").2 = some (.duplicateLabel "a" 1 1) ∧
      verify "jmp a" = some (.undefinedSymbol "a" 1) ∧
      ((Verifier.empty.after ["a:"]).verify "jmp a").2 = none ∧
      ((Verifier.empty.after ["a:"]).verify "jmp a").1.labels.length = 1 := by
  decide +kernel

end StackLang.Assembly
