import StackLang.Proofs.GeneratedAssembly

/-!
# Directives stay behind

Definitions and inclusions are gone when the tokens of a source are handed on. Macro bodies hold no
keyword that could bring one back, whatever sources were read before and however they ended, so an
`END` that is handed on was written outside definitions. Every keyword that is left is one of a
program.

- `Reading.session`: what is defined after some sources.
- `Reading.plain_source`, `Reading.plain_session`: macro bodies stay free of directives.
- `Reading.of_mem_source`: where the tokens of a source come from.
- `Reading.directives_stay_behind`: directives are not handed on, and no keyword is unexpected.
-/

set_option autoImplicit false

namespace StackLang

namespace Reading

/-! ## Macro bodies -/

/-- A source that is read, with the files that it may include. -/
structure Call where
  lib : Library
  file : Text
  content : Text

/-- What is defined and read after some sources, one after the other; some of them may fail. -/
def session (calls : List Call) : Reading :=
  calls.foldl (fun st c => (source c.lib st c.file c.content).2) {}

/-- No macro body holds a keyword that starts or ends a directive. -/
def Plain (st : Reading) : Prop := ∀ m ∈ st.macros, ∀ t ∈ m.body, MacroDef.stopsBody t = false

section
variable {lib : Library} {st : Reading} {file content : Text} {evs : List Event}
  {e : Option Failure}

/-- A definition in a file has a plain body. -/
theorem plain_of_definition {m : MacroDef}
    (h : .definition m ∈ met (Piece.ofSource file content) evs) :
    ∀ t ∈ m.body, MacroDef.stopsBody t = false := by
  obtain ⟨path, text, -, hi⟩ := mem_met_ofSource.1 h
  obtain ⟨tokens, -, hin⟩ := Piece.of_definition_mem hi
  exact fun t ht => (hin t ht).2

/-- **A source keeps macro bodies plain**, also when it fails. -/
theorem plain_source (hp : st.Plain) (lib : Library) (file content : Text) :
    (source lib st file content).2.Plain := by
  obtain ⟨evs, e, hrun, hres⟩ := exists_run lib st file content
  rw [hres]
  intro m hm
  rcases hrun.mem_macros (List.Subset.refl evs) hm with hm | hm
  · exact hp m hm
  · exact plain_of_definition hm

/-- **Macro bodies are plain** after any sources. -/
theorem plain_session (calls : List Call) : (session calls).Plain := by
  have hstart : Plain {} := fun m hm => absurd hm List.not_mem_nil
  unfold session
  generalize ({} : Reading) = st at hstart ⊢
  induction calls generalizing st with
  | nil => exact hstart
  | cons c calls ih => exact ih _ (plain_source hstart c.lib c.file c.content)

/-! ## Tokens -/

/-- A token that is handed on is one of a file, outside of its definitions and inclusions, or it is
plain. -/
theorem of_mem_run (hp : st.Plain) (hrun : Run lib st file content evs e) {t : Token}
    (ht : t ∈ evs.flatMap Event.out) :
    (∃ path text, (path, text) ∈ filesOf file content evs ∧ .token t ∈ Piece.ofSource path text) ∨
      MacroDef.stopsBody t = false := by
  rcases hrun.mem_out ht with ht | ⟨m, site, b, hm, -, hb, rfl⟩
  · exact .inl (mem_met_ofSource.1 ht)
  · rcases hm with hm | hm
    · exact .inr (hp m hm b hb)
    · exact .inr (plain_of_definition hm b hb)

/-- **Where the tokens of a source come from.** None of them is a directive, and an `END` stands in a
file, outside of its definitions. -/
theorem of_mem_source (hp : st.Plain) (hrun : Run lib st file content evs none) {t : Token}
    (ht : t ∈ evs.flatMap Event.out) :
    t.isKeyword "MACRO" = false ∧ t.isKeyword "INCLUDE" = false ∧
      (t.isKeyword "END" = true → ∃ path text, (path, text) ∈ filesOf file content evs ∧
        .token t ∈ Piece.ofSource path text) := by
  rcases of_mem_run hp hrun ht with hfile | hplain
  · obtain ⟨path, text, -, hi⟩ := id hfile
    obtain ⟨tokens, -, hin⟩ := Piece.of_token_mem hi
    exact ⟨hin.2.1, hin.2.2, fun _ => hfile⟩
  · simp only [MacroDef.stopsBody, Bool.or_eq_false_iff] at hplain
    refine ⟨hplain.1.2, hplain.2, fun hend => ?_⟩
    rw [hplain.1.1] at hend
    cases hend

end

end Reading

/-! ## Keywords of a program -/

/-- A keyword is written as one. -/
def Token.Spelled (t : Token) : Prop := t.kind = .keyword → Lexer.isKeyword t.text = true

theorem Lexer.spelled_of_classify {chars : List Char} {kind : TokenKind} {text : Text}
    (h : classify chars = .ok (kind, text)) (loc : Location) :
    Token.Spelled ⟨kind, text, loc⟩ := by
  intro hk
  obtain rfl : kind = .keyword := hk
  unfold classify at h
  dsimp only at h
  split at h
  · rename_i hkey
    cases h
    exact hkey
  split at h
  · split at h <;> cases h
  split at h
  · cases h
  split at h
  · cases h
  split at h
  · split at h
    · split at h <;> cases h
    · cases h
  split at h
  · split at h <;> cases h
  split at h <;> cases h

theorem Lexer.delivers_spelled (file source : Text) :
    Delivers (TokensIn Token.Spelled) (tokens file source) := by
  refine delivers_tokens source fun pos c cs t more _ _ ht => ?_
  obtain ⟨n, kind, text, -, hk, rfl, -⟩ := token_ok ht
  exact spelled_of_classify hk _

/-- A keyword that is no directive has an action. -/
theorem Action.ofToken_ne_unexpectedKeyword {t : Token} (ht : t.Kept Token.Spelled) (text : Text)
    (loc : Location) : Action.ofToken t ≠ .error ((Cause.unexpectedKeyword text).at loc) := by
  obtain ⟨hspelled, hmacro, hinclude⟩ := ht
  intro h
  unfold Action.ofToken at h
  split at h
  case h_1 hk =>
    simp only [Token.isKeyword, hk, decide_true, Bool.true_and, decide_eq_false_iff_not]
      at hmacro hinclude
    have hname : (Keyword.ofName? t.text).isSome = true := by
      simpa [Lexer.isKeyword, Lexer.directives, hmacro, hinclude] using hspelled hk
    obtain ⟨k, hk⟩ := Option.isSome_iff_exists.1 hname
    rw [hk] at h
    cases h
  case h_2 | h_3 | h_7 => split at h <;> cases h
  all_goals cases h

/-- **No keyword is unexpected** in a program. -/
theorem compile_ne_unexpectedKeyword (lib : Library) (file source : Text) (wish : Int) (text : Text)
    (loc : Location) :
    compile lib file source wish ≠ .error ((Cause.unexpectedKeyword text).at loc) := by
  intro h
  have hkind : ∀ {kinds loc'}, ((Cause.unexpectedKeyword text).at loc).Blames kinds loc' →
      .unknownOperation ∈ kinds := fun hblame => hblame.kind_mem
  obtain ⟨evs, e, hrun, hres⟩ := Reading.exists_run lib {} file source
  have hsource := congrArg Prod.fst hres
  rw [compile, hsource] at h
  cases e with
  | some f =>
    obtain rfl : f = _ := Except.error.inj h
    rcases Reading.refused_of_run hrun with ⟨_, _, _, _, -, -, hf⟩ | ⟨_, -, hblame⟩
    · cases hf
    · exact absurd (hkind hblame) (by decide)
  | none =>
    have hsound := (Reading.delivers_source lib file source).of_ok hsource
    have hkept := (Reading.delivers_kept (fun _ _ h => h) Lexer.delivers_spelled lib file
      source).of_ok hsource
    rcases refused_of_compileTokens hsound h with ⟨t, ht, hf⟩ | ⟨t, -, hblame⟩
    · exact Action.ofToken_ne_unexpectedKeyword (hkept t ht) text loc hf
    · exact absurd (hkind hblame) (by decide)

namespace Reading

/-- **Directives stay behind.** Whatever sources were read before, also such that failed, no macro
body holds a `MACRO`, `INCLUDE` or `END`. The tokens of a source that is read then hold no `MACRO` and
no `INCLUDE`, and an `END` among them is written in the source or in a file that is included, outside
of definitions. So compiling never ends at a keyword that a program has no use for. -/
theorem directives_stay_behind (calls : List Call) :
    (∀ m ∈ (session calls).macros, ∀ t ∈ m.body, t.isKeyword "MACRO" = false ∧
      t.isKeyword "INCLUDE" = false ∧ t.isKeyword "END" = false) ∧
    (∀ lib file content tokens, (source lib (session calls) file content).1 = .ok tokens →
      ∃ evs, Run lib (session calls) file content evs none ∧ tokens = evs.flatMap Event.out ∧
        ∀ t ∈ tokens, t.isKeyword "MACRO" = false ∧ t.isKeyword "INCLUDE" = false ∧
          (t.isKeyword "END" = true → ∃ path text, (path, text) ∈ filesOf file content evs ∧
            .token t ∈ Piece.ofSource path text)) ∧
    ∀ lib file content wish text loc,
      compile lib file content wish ≠ .error ((Cause.unexpectedKeyword text).at loc) := by
  have hp := plain_session calls
  refine ⟨fun m hm t ht => ?_, fun lib file content tokens h => ?_, compile_ne_unexpectedKeyword⟩
  · have hplain := hp m hm t ht
    simp only [MacroDef.stopsBody, Bool.or_eq_false_iff] at hplain
    exact ⟨hplain.1.2, hplain.2, hplain.1.1⟩
  · obtain ⟨evs, e, hrun, hres⟩ := exists_run lib (session calls) file content
    rw [hres] at h
    obtain ⟨rfl, rfl⟩ := Event.outcome_eq_ok.1 h
    exact ⟨evs, hrun, rfl, fun t ht => of_mem_source hp hrun ht⟩

/-- A source that fails after a definition. -/
def interrupted : Call := ⟨.ofList "/" [], "a", "macro twice dup + end include"⟩

def interruptedMacro : MacroDef :=
  ⟨"TWICE", [⟨.word, "DUP", ⟨"a", 1, 13⟩⟩, ⟨.word, "PLUS", ⟨"a", 1, 17⟩⟩], ⟨"a", 1, 7⟩⟩

theorem session_interrupted :
    session [interrupted] = { macros := [interruptedMacro], seen := ["/a"] } := by
  have hl : Lexer.tokens "a" "macro twice dup + end include"
      = .ok [⟨.keyword, "MACRO", ⟨"a", 1, 1⟩⟩, ⟨.word, "TWICE", ⟨"a", 1, 7⟩⟩,
        ⟨.word, "DUP", ⟨"a", 1, 13⟩⟩, ⟨.word, "PLUS", ⟨"a", 1, 17⟩⟩, ⟨.keyword, "END", ⟨"a", 1, 19⟩⟩,
        ⟨.keyword, "INCLUDE", ⟨"a", 1, 23⟩⟩] := by decide +kernel
  have hread : MacroDef.read ⟨.keyword, "MACRO", ⟨"a", 1, 1⟩⟩ [⟨.word, "TWICE", ⟨"a", 1, 7⟩⟩,
      ⟨.word, "DUP", ⟨"a", 1, 13⟩⟩, ⟨.word, "PLUS", ⟨"a", 1, 17⟩⟩, ⟨.keyword, "END", ⟨"a", 1, 19⟩⟩,
      ⟨.keyword, "INCLUDE", ⟨"a", 1, 23⟩⟩]
      = .ok (interruptedMacro, [⟨.keyword, "INCLUDE", ⟨"a", 1, 23⟩⟩]) := by decide +kernel
  have hpieces : Piece.ofSource "a" "macro twice dup + end include"
      = [.definition interruptedMacro, .malformed (Cause.includeWithoutName.at ⟨"a", 1, 23⟩)] := by
    rw [Piece.ofSource, hl]
    dsimp only
    rw [Piece.ofTokens_define _ (by decide), hread]
    simp +decide [Piece.ofTokens]
  have hrun : Run (.ofList "/" []) {} "a" "macro twice dup + end include"
      [.definition interruptedMacro] (some (Cause.includeWithoutName.at ⟨"a", 1, 23⟩)) := by
    rw [Run, hpieces]
    exact .definition .malformed
  rw [session, List.foldl_cons, List.foldl_nil, interrupted, source_of_run hrun]
  rfl

theorem run_resumed : Run (.ofList "/" []) (session [interrupted]) "b" "twice end"
    [.token ⟨.word, "TWICE", ⟨"b", 1, 1⟩⟩
      [⟨.word, "DUP", ⟨"b", 1, 1⟩⟩, ⟨.word, "PLUS", ⟨"b", 1, 1⟩⟩],
     .token ⟨.keyword, "END", ⟨"b", 1, 7⟩⟩ [⟨.keyword, "END", ⟨"b", 1, 7⟩⟩]] none := by
  have hl : Lexer.tokens "b" "twice end" = .ok [⟨.word, "TWICE", ⟨"b", 1, 1⟩⟩,
      ⟨.keyword, "END", ⟨"b", 1, 7⟩⟩] := by decide +kernel
  have hpieces : Piece.ofSource "b" "twice end" = [.token ⟨.word, "TWICE", ⟨"b", 1, 1⟩⟩,
      .token ⟨.keyword, "END", ⟨"b", 1, 7⟩⟩] := by
    simp +decide [Piece.ofSource, hl, Piece.ofTokens]
  have hword : MacroTable.ofToken? [interruptedMacro] ⟨.word, "TWICE", ⟨"b", 1, 1⟩⟩
      = some interruptedMacro := by rfl
  have hstands : MacroTable.standsFor [interruptedMacro] ⟨.word, "TWICE", ⟨"b", 1, 1⟩⟩
      = .ok [⟨.word, "DUP", ⟨"b", 1, 1⟩⟩, ⟨.word, "PLUS", ⟨"b", 1, 1⟩⟩] := by
    rw [MacroTable.standsFor, hword]
    exact MacroTable.expand_plain (by decide) _
  rw [Run, hpieces, session_interrupted]
  exact .token hstands (.token rfl .done)

theorem directives_stay_behind_resumed :
    (source (.ofList "/" []) (session [interrupted]) "b" "twice end").1
      = .ok [⟨.word, "DUP", ⟨"b", 1, 1⟩⟩, ⟨.word, "PLUS", ⟨"b", 1, 1⟩⟩,
        ⟨.keyword, "END", ⟨"b", 1, 7⟩⟩] ∧
    .token ⟨.keyword, "END", ⟨"b", 1, 7⟩⟩ ∈ Piece.ofSource "b" "twice end" := by
  have hsource := congrArg Prod.fst (source_of_run run_resumed)
  refine ⟨hsource, ?_⟩
  obtain ⟨evs, hrun, -, htokens⟩ := (directives_stay_behind [interrupted]).2.1 _ _ _ _ hsource
  obtain ⟨rfl, -⟩ := run_resumed.unique hrun
  obtain ⟨path, text, hfile, hend⟩ :=
    (htokens ⟨.keyword, "END", ⟨"b", 1, 7⟩⟩ (by decide)).2.2 (by decide)
  obtain ⟨rfl, rfl⟩ : path = "b" ∧ text = "twice end" := by simpa [filesOf, Event.file?] using hfile
  exact hend

end Reading

end StackLang
