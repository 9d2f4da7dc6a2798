import Mathlib.Logic.Relation
import StackLang.Proofs.Pieces

/-!
# What macros stand for

A word that names a macro stands for the body of its latest definition, in which the words that name
macros are replaced in turn. That comes to an end unless some macro, by way of the words in bodies,
mentions itself. The expansion looks at one chain of macros at a time; it fails exactly when such a
macro can be reached, and the macro that it blames is one.

- `MacroDef.named?`: the definition that holds after some others; `MacroTable.ofToken?_defined`.
- `MacroDef.Unfolds`: tokens with all macro words replaced. `MacroDef.Circular`: a macro that leads
  to one which mentions itself.
- `MacroTable.unfolds_of_expandBody`, `MacroTable.circular_of_expandBody`: the two ends of an
  expansion.
- `MacroTable.expand_substitutes`: which of them it is, and with which tokens.
-/

set_option autoImplicit false

namespace StackLang

open Relation (ReflTransGen TransGen)

/-! ## Definitions one after the other -/

/-- The macro that a token names after some definitions: the last one with that name. -/
def MacroDef.named? (defs : List MacroDef) (t : Token) : Option MacroDef :=
  if t.kind = .word then defs.reverse.find? (·.name = t.text) else none

namespace MacroTable

/-- The table after some definitions, one after the other. -/
def defined (defs : List MacroDef) : MacroTable := defs.foldl insert []

theorem find?_insert (table : MacroTable) (m : MacroDef) (name : Text) :
    (table.insert m).find? name = if m.name = name then some m else table.find? name := by
  unfold find? insert
  by_cases h : m.name = name
  · simp [h]
  · rw [List.find?_cons_of_neg (by simpa using h), if_neg h, List.find?_filter]
    congr 1
    funext n
    by_cases hn : n.name = name
    · simp [hn, Ne.symm h]
    · simp [hn]

theorem find?_foldl_insert (defs : List MacroDef) (table : MacroTable) (name : Text) :
    (defs.foldl insert table).find? name
      = (defs.reverse.find? (·.name = name)).or (table.find? name) := by
  induction defs generalizing table with
  | nil => rfl
  | cons m defs ih =>
    rw [List.foldl_cons, ih, find?_insert, List.reverse_cons, List.find?_append, Option.or_assoc]
    by_cases h : m.name = name <;> simp [h]

/-- **A word names the latest definition.** -/
theorem ofToken?_defined (defs : List MacroDef) :
    (defined defs).ofToken? = MacroDef.named? defs := by
  funext t
  have hnone : find? [] t.text = none := rfl
  rw [ofToken?, defined, find?_foldl_insert, hnone, Option.or_none]
  rfl

end MacroTable

/-! ## Substitution -/

namespace MacroDef

section
variable (named : Token → Option MacroDef)

/-- A macro mentions another one when a token of its body names it. -/
def Mentions (m n : MacroDef) : Prop := ∃ t ∈ m.body, named t = some n

/-- A macro that leads, by mentions, to one that leads to itself. -/
def Circular (m : MacroDef) : Prop :=
  ∃ n, ReflTransGen (Mentions named) m n ∧ TransGen (Mentions named) n n

/-- Tokens, and what is left when each one that names a macro is replaced by the unfolded body. -/
inductive Unfolds : List Token → List Token → Prop
  | nil : Unfolds [] []
  | token {t : Token} {rest out : List Token} (ht : named t = none) (h : Unfolds rest out) :
    Unfolds (t :: rest) (t :: out)
  | word {t : Token} {m : MacroDef} {rest inner out : List Token} (ht : named t = some m)
    (hm : Unfolds m.body inner) (h : Unfolds rest out) : Unfolds (t :: rest) (inner ++ out)

end

section
variable {named : Token → Option MacroDef}

/-- A macro is circular only by way of one that it mentions. -/
theorem not_circular_of_mentions {m : MacroDef}
    (h : ∀ t ∈ m.body, ∀ n, named t = some n → ¬Circular named n) : ¬Circular named m := by
  rintro ⟨n, hreach, hcycle⟩
  rcases ReflTransGen.cases_head hreach with rfl | ⟨k, ⟨t, ht, hk⟩, hkn⟩
  · obtain ⟨k, ⟨t, ht, hk⟩, hkm⟩ := TransGen.head'_iff.1 hcycle
    exact h t ht k hk ⟨m, hkm, hcycle⟩
  · exact h t ht k hk ⟨n, hkn, hcycle⟩

/-- What is left names no macros. -/
theorem Unfolds.named_eq_none {body out : List Token} (h : Unfolds named body out) :
    ∀ o ∈ out, named o = none := by
  induction h with
  | nil => simp
  | token ht h ih => exact List.forall_mem_cons.2 ⟨ht, ih⟩
  | word ht hm h ihm ih => exact List.forall_mem_append.2 ⟨ihm, ih⟩

/-- Substitution has one result. -/
theorem Unfolds.unique {body out out' : List Token} (h : Unfolds named body out)
    (h' : Unfolds named body out') : out = out' := by
  induction h generalizing out' with
  | nil =>
    cases h'
    rfl
  | token ht h ih =>
    cases h' with
    | token _ h' => rw [ih h']
    | word ht' _ _ => cases ht.symm.trans ht'
  | word ht hm h ihm ih =>
    cases h' with
    | token ht' _ => cases ht'.symm.trans ht
    | word ht' hm' h' =>
      obtain rfl := Option.some.inj (ht.symm.trans ht')
      rw [ihm hm', ih h']

/-- Substitution ends only where no macro is circular. -/
theorem Unfolds.not_circular {body out : List Token} (h : Unfolds named body out) :
    ∀ t ∈ body, ∀ m, named t = some m → ¬Circular named m := by
  induction h with
  | nil => simp
  | token ht h ih =>
    refine List.forall_mem_cons.2 ⟨fun m hm => ?_, ih⟩
    rw [ht] at hm
    cases hm
  | word ht hm h ihm ih =>
    refine List.forall_mem_cons.2 ⟨fun m' hm' => ?_, ih⟩
    obtain rfl := Option.some.inj (ht.symm.trans hm')
    exact not_circular_of_mentions ihm

end

end MacroDef

/-! ## Expansion -/

namespace MacroTable

open MacroDef (Mentions Circular Unfolds named?)

section
variable {table : MacroTable} {site : Location} {active : List Text} {body : List Token}

theorem find?_of_ofToken? {t : Token} {m : MacroDef} (h : table.ofToken? t = some m) :
    table.find? m.name = some m := by
  unfold ofToken? at h
  split at h
  · have hname : m.name = t.text := by simpa using List.find?_some h
    rwa [hname]
  · cases h

/-- **An expansion that succeeds is the substitution**, at the place of the word. -/
theorem unfolds_of_expandBody {out : List Token}
    (h : table.expandBody site active body = .ok out) :
    ∃ ts, Unfolds table.ofToken? body ts ∧ out = ts.map fun t => { t with loc := site } := by
  fun_induction expandBody table site active body generalizing out with
  | case1 =>
    cases h
    exact ⟨[], .nil, rfl⟩
  | case2 active t rest hn ih =>
    obtain ⟨out, hout, rfl⟩ := Failure.of_map_ok h
    obtain ⟨ts, hts, rfl⟩ := ih hout
    exact ⟨t :: ts, .token hn hts, rfl⟩
  | case3 => cases h
  | case4 => cases h
  | case5 active t rest m hm hna inner hin ihin ih =>
    obtain ⟨out, hout, rfl⟩ := Failure.of_map_ok h
    obtain ⟨us, hus, rfl⟩ := ihin hin
    obtain ⟨ts, hts, rfl⟩ := ih hout
    exact ⟨us ++ ts, .word hm hus hts, List.map_append.symm⟩

/-- **An expansion that fails has met a macro that mentions itself.** The body is that of `m`, or
what is left of it; the macros being expanded all lead to `m`. -/
theorem circular_of_expandBody {m : MacroDef} {f : Failure}
    (h : table.expandBody site active body = .error f) (hbody : body ⊆ m.body)
    (hactive : ∀ name ∈ active, ∃ n, table.find? name = some n ∧
      ReflTransGen (Mentions table.ofToken?) n m) :
    ∃ n, ReflTransGen (Mentions table.ofToken?) m n ∧ TransGen (Mentions table.ofToken?) n n ∧
      f = (Cause.recursiveMacro n.name).at site := by
  fun_induction expandBody table site active body generalizing m with
  | case1 => cases h
  | case2 active t rest hn ih =>
    exact ih (Failure.of_map_error h) (List.subset_of_cons_subset hbody) hactive
  | case3 active t rest n hn hna =>
    cases h
    have hmn : Mentions table.ofToken? m n := ⟨t, hbody List.mem_cons_self, hn⟩
    obtain ⟨n', hn', hnm⟩ := hactive n.name hna
    obtain rfl : n = n' := Option.some.inj ((find?_of_ofToken? hn).symm.trans hn')
    exact ⟨n, .single hmn, TransGen.tail' hnm hmn, rfl⟩
  | case4 active t rest n hn hna e he ih =>
    cases h
    have hmn : Mentions table.ofToken? m n := ⟨t, hbody List.mem_cons_self, hn⟩
    obtain ⟨k, hnk, hcycle, hf⟩ := ih he (List.Subset.refl _) <| by
      refine List.forall_mem_cons.2 ⟨⟨n, find?_of_ofToken? hn, .refl⟩, fun name hname => ?_⟩
      obtain ⟨k, hk, hkm⟩ := hactive name hname
      exact ⟨k, hk, hkm.tail hmn⟩
    exact ⟨k, hnk.head hmn, hcycle, hf⟩
  | case5 active t rest n hn hna inner hin ihin ih =>
    exact ih (Failure.of_map_error h) (List.subset_of_cons_subset hbody) hactive

end

/-- **Macros are expanded in full, and refused only when they are circular.** After any definitions,
let a token name the macro `m`. Its expansion fails if and only if `m` is circular with respect to
the latest definitions; then the error is at the place of the token and names a macro that leads to
itself. Otherwise the expansion is the body of `m` with every word that names a macro replaced in
turn, so that no word of it names one, and all its tokens are at the place of the token. -/
theorem expand_substitutes (defs : List MacroDef) {t : Token} {m : MacroDef}
    (h : named? defs t = some m) :
    ((∃ f, (defined defs).expand t.loc m = .error f) ↔ Circular (named? defs) m) ∧
    (∀ f, (defined defs).expand t.loc m = .error f →
      ∃ n, ReflTransGen (Mentions (named? defs)) m n ∧ TransGen (Mentions (named? defs)) n n ∧
        f = (Cause.recursiveMacro n.name).at t.loc) ∧
    (¬Circular (named? defs) m → ∃ out, Unfolds (named? defs) m.body out ∧
      (∀ o ∈ out, named? defs o = none) ∧
      (defined defs).expand t.loc m = .ok (out.map fun o => { o with loc := t.loc })) := by
  rw [← ofToken?_defined] at h ⊢
  have hfails : ∀ f, (defined defs).expand t.loc m = .error f →
      ∃ n, ReflTransGen (Mentions (defined defs).ofToken?) m n ∧
        TransGen (Mentions (defined defs).ofToken?) n n ∧
        f = (Cause.recursiveMacro n.name).at t.loc := by
    intro f hf
    refine circular_of_expandBody hf (List.Subset.refl _) fun name hname => ?_
    obtain rfl := List.mem_singleton.1 hname
    exact ⟨m, find?_of_ofToken? h, .refl⟩
  cases hx : (defined defs).expand t.loc m with
  | error f =>
    obtain ⟨n, hreach, hcycle, hf⟩ := hfails f hx
    have hcircular : Circular (defined defs).ofToken? m := ⟨n, hreach, hcycle⟩
    exact ⟨⟨fun _ => hcircular, fun _ => ⟨f, rfl⟩⟩, fun f' hf' => hfails f' (hx.trans hf'),
      fun hno => absurd hcircular hno⟩
  | ok out =>
    obtain ⟨ts, hts, rfl⟩ := unfolds_of_expandBody hx
    have hno := MacroDef.not_circular_of_mentions hts.not_circular
    refine ⟨⟨?_, fun hcircular => absurd hcircular hno⟩, ?_,
      fun _ => ⟨ts, hts, hts.named_eq_none, rfl⟩⟩
    · rintro ⟨f, hf⟩
      cases hf
    · intro f hf
      cases hf

/-- A macro that uses another one twice. -/
def advancing : MacroDef :=
  ⟨"ADVANCE", [⟨.word, "NEXT", ⟨"a", 1, 15⟩⟩, ⟨.word, "NEXT", ⟨"a", 1, 20⟩⟩], ⟨"a", 1, 7⟩⟩

/-- A first definition of the other one, which leads back. -/
def returning : MacroDef := ⟨"NEXT", [⟨.word, "ADVANCE", ⟨"a", 2, 12⟩⟩], ⟨"a", 2, 7⟩⟩

/-- A second definition, which does not. -/
def counting : MacroDef :=
  ⟨"NEXT", [⟨.integer, "1", ⟨"a", 3, 12⟩⟩, ⟨.word, "PLUS", ⟨"a", 3, 14⟩⟩], ⟨"a", 3, 7⟩⟩

def advancingSite : Token := ⟨.word, "ADVANCE", ⟨"a", 4, 1⟩⟩

theorem expand_substitutes_redefined :
    (∃ f, (defined [advancing, returning]).expand advancingSite.loc advancing = .error f) ∧
    (defined [advancing, returning, counting]).expand advancingSite.loc advancing
      = .ok [⟨.integer, "1", ⟨"a", 4, 1⟩⟩, ⟨.word, "PLUS", ⟨"a", 4, 1⟩⟩,
        ⟨.integer, "1", ⟨"a", 4, 1⟩⟩, ⟨.word, "PLUS", ⟨"a", 4, 1⟩⟩] := by
  refine ⟨(expand_substitutes [advancing, returning] (t := advancingSite) (by decide)).1.2 ?_, ?_⟩
  · have hthere : Mentions (named? [advancing, returning]) advancing returning :=
      ⟨_, List.mem_cons_self, by decide⟩
    have hback : Mentions (named? [advancing, returning]) returning advancing :=
      ⟨_, List.mem_cons_self, by decide⟩
    exact ⟨advancing, .refl, .tail (.single hthere) hback⟩
  · have hnext : Unfolds (named? [advancing, returning, counting]) counting.body counting.body :=
      .token (by decide) (.token (by decide) .nil)
    have hboth : Unfolds (named? [advancing, returning, counting]) advancing.body
        (counting.body ++ (counting.body ++ [])) :=
      .word (by decide) hnext (.word (by decide) hnext .nil)
    obtain ⟨out, hout, -, hx⟩ := (expand_substitutes [advancing, returning, counting]
      (t := advancingSite) (m := advancing) (by decide)).2.2
      (MacroDef.not_circular_of_mentions hboth.not_circular)
    rw [hx, hout.unique hboth]
    rfl

end MacroTable

end StackLang
