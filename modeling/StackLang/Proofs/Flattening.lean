import StackLang.Proofs.Places

/-!
# Macros and included files are shorthand

What a source means is told by its tokens once macros and included files are resolved. Their texts,
with single blanks between them, are a source of their own, which needs neither; it is compiled to
the same assembly, or refused for an error of the same kind.

- `outcome_bare`: places do not show in what is compiled.
- `compile_flattened`: a source and the texts of its tokens are compiled alike.
-/

set_option autoImplicit false

namespace StackLang

/-- What compilations are compared by: the text and the symbols of the assembly, or the kind of the
failure. -/
def outcome : Except Failure Compiled →
    Except (Option ErrorKind) (Text × List (Text × Section))
  | .ok r => .ok (r.artifact.render, r.artifact.symbols.toList)
  | .error f => .error f.kind?

theorem Token.isKeyword_bare (t : Token) (word : Text) :
    t.bare.isKeyword word = t.isKeyword word := by
  obtain ⟨kind, text, loc⟩ := t
  cases kind <;> rfl

theorem Token.Sound.bare {t : Token} (h : t.Sound) : t.bare.Sound := by
  obtain ⟨kind, text, loc⟩ := t
  cases kind with
  | boolean => trivial
  | _ => exact h

/-- What is compiled from tokens that the stages before the code accept. -/
theorem compileTokens_of_resolve {tokens : List Token} {prog : Program} {analysis : Analysis}
    {table : BlockTable} (ht : SoundTokens tokens) (hp : Program.ofTokens tokens = .ok prog)
    (hc : Check.run prog = .ok analysis) (hr : Blocks.resolve prog = .ok table) (file : Text)
    (size : Int) : compileTokens file size tokens = .ok ⟨tokens, prog, analysis, table,
      Codegen.layout prog table (Codegen.bufferSizeFor size)⟩ := by
  have hs := (Program.delivers_ofTokens ht).of_ok hp
  have hi : prog.Indexed := fun i op hop => Program.index_ofTokens hp hop
  have hstat := Check.statics_of_run hc
  obtain ⟨a, hg, -, -, hv⟩ := generate_accepted hs hi hr hstat size
  obtain rfl := Except.ok.inj (hg.symm.trans (Codegen.generate_eq_layout hs hi hr hstat size))
  exact compileTokens_eq_ok_iff.2 ⟨rfl, hp, hc, hr, hg, hv⟩

/-- Neither places nor the difference of truth values and numbers show in what is compiled. -/
theorem outcome_bare {tokens : List Token} (ht : SoundTokens tokens) (file file' : Text)
    (size : Int) : outcome (compileTokens file' size (tokens.map Token.bare))
      = outcome (compileTokens file size tokens) := by
  have ht' : SoundTokens (tokens.map Token.bare) :=
    List.forall_mem_map.2 fun t hm => (ht t hm).bare
  have hprog := Program.ofTokensFrom_bare 0 tokens
  rw [← Program.ofTokens, ← Program.ofTokens] at hprog
  cases hp : Program.ofTokens tokens with
  | error f =>
    rw [hp] at hprog
    simp only [compileTokens, hp, hprog, bind, Except.bind]
    exact congrArg Except.error f.kind?_bare
  | ok prog =>
    rw [hp, stripped_ok, map_ok] at hprog
    have hsteps := Check.steps_bare prog []
    cases hc : Check.steps prog [] with
    | error f =>
      rw [hc, stripped_error] at hsteps
      simp only [compileTokens, hp, hprog, Check.run, hc, hsteps, bind, Except.bind]
      exact congrArg Except.error f.kind?_bare
    | ok stack =>
      rw [hc] at hsteps
      have hrun := Check.run_of_steps hc
      have hrun' := Check.run_of_steps hsteps
      have hblocks := Blocks.resolve_bare prog
      cases hr : Blocks.resolve prog with
      | error f =>
        rw [hr, stripped_error] at hblocks
        simp only [compileTokens, hp, hprog, hrun, hrun', hr, hblocks, bind, Except.bind]
        exact congrArg Except.error f.kind?_bare
      | ok table =>
        rw [hr] at hblocks
        rw [compileTokens_of_resolve ht hp hrun hr,
          compileTokens_of_resolve ht' hprog hrun' hblocks, outcome, outcome, Codegen.layout_bare]

/-- The tokens of a source can be read again, and none of them is a directive. -/
theorem Reading.kept_of_source {lib : Library} {file content : Text} {tokens : List Token}
    (h : (source lib {} file content).1 = .ok tokens) :
    TokensIn (Token.Kept Token.Rereads) tokens :=
  (delivers_kept (fun _ _ ht => ht) Lexer.delivers_rereads lib file content).of_ok h

/-- **Macros and included files are shorthand.** When the tokens of a source are found, the texts of
the tokens with single blanks between them are compiled like the source: to the same assembly text
with the same symbols when either is compiled, and with an error of the same kind otherwise. They
need no files, so it does not matter which there are. -/
theorem compile_flattened {lib : Library} {file source : Text} {tokens : List Token}
    (h : (Reading.source lib {} file source).1 = .ok tokens) (lib' : Library) (file' : Text)
    (size : Int) : outcome (compile lib' file' (Text.join " " (tokens.map (·.text))) size)
      = outcome (compile lib file source size) := by
  have hkept := Reading.kept_of_source h
  obtain ⟨again, htokens, hbare⟩ := Lexer.tokens_join (hkept.mono fun _ hk => hk.1) file'
  have hplain : ∀ t ∈ again, t.isKeyword "MACRO" = false ∧ t.isKeyword "INCLUDE" = false := by
    intro t hm
    have hb : t.bare ∈ tokens.map Token.bare := hbare ▸ List.mem_map_of_mem hm
    obtain ⟨t', hm', he⟩ := List.mem_map.1 hb
    rw [← t.isKeyword_bare, ← t.isKeyword_bare, ← he, t'.isKeyword_bare, t'.isKeyword_bare]
    exact (hkept t' hm').2
  have hagain : (Reading.source lib' {} file' _).1 = .ok again := source_of_tokens htokens hplain
  have hs := (Reading.delivers_source lib file source).of_ok h
  have hs' := (Reading.delivers_source lib' file' _).of_ok hagain
  simp only [compile, h, hagain]
  rw [← outcome_bare hs' file' file', hbare, outcome_bare hs file file']

/-- A program that takes a macro from another file. -/
def doubling : Text := "include \"m\" true twice ."

def doublingFiles : Library := .ofList "/" [("m", "macro twice dup + end")]

def doublingTokens : List Token :=
  [⟨.boolean, "1", ⟨"a", 1, 13⟩⟩, ⟨.word, "DUP", ⟨"a", 1, 18⟩⟩, ⟨.word, "PLUS", ⟨"a", 1, 18⟩⟩,
   ⟨.word, "PRINT_INT", ⟨"a", 1, 24⟩⟩]

theorem source_doubling :
    (Reading.source doublingFiles {} "a" doubling).1 = .ok doublingTokens := by
  have hl : Lexer.tokens "a" doubling = .ok [⟨.keyword, "INCLUDE", ⟨"a", 1, 1⟩⟩,
      ⟨.string, "\"m\"", ⟨"a", 1, 9⟩⟩, ⟨.boolean, "1", ⟨"a", 1, 13⟩⟩,
      ⟨.word, "TWICE", ⟨"a", 1, 18⟩⟩, ⟨.word, "PRINT_INT", ⟨"a", 1, 24⟩⟩] := by decide +kernel
  have hm : Lexer.tokens "m" "macro twice dup + end" = .ok [⟨.keyword, "MACRO", ⟨"m", 1, 1⟩⟩,
      ⟨.word, "TWICE", ⟨"m", 1, 7⟩⟩, ⟨.word, "DUP", ⟨"m", 1, 13⟩⟩, ⟨.word, "PLUS", ⟨"m", 1, 17⟩⟩,
      ⟨.keyword, "END", ⟨"m", 1, 19⟩⟩] := by decide +kernel
  obtain ⟨mem, new, ho⟩ : ∃ mem new, Reading.openFile doublingFiles [doublingFiles.key "a"] "a"
      { seen := [doublingFiles.key "a"] } ⟨.string, "\"m\"", ⟨"a", 1, 9⟩⟩
      = (.fresh "m" "macro twice dup + end" mem new,
        { seen := [doublingFiles.key "m", doublingFiles.key "a"] }) := ⟨_, _, rfl⟩
  have hread : MacroDef.read ⟨.keyword, "MACRO", ⟨"m", 1, 1⟩⟩ [⟨.word, "TWICE", ⟨"m", 1, 7⟩⟩,
      ⟨.word, "DUP", ⟨"m", 1, 13⟩⟩, ⟨.word, "PLUS", ⟨"m", 1, 17⟩⟩, ⟨.keyword, "END", ⟨"m", 1, 19⟩⟩]
      = .ok (⟨"TWICE", [⟨.word, "DUP", ⟨"m", 1, 13⟩⟩, ⟨.word, "PLUS", ⟨"m", 1, 17⟩⟩], ⟨"m", 1, 7⟩⟩,
        []) := by decide +kernel
  simp only [Reading.source, hl]
  rw [Reading.splice_include (by decide) (by decide) rfl ho hm
    ((Reading.splice_define (by decide) hread).trans (Reading.splice.eq_1 ..)),
    Reading.splice_token (by decide) (by decide) (by decide),
    Reading.splice_call (by decide) (by decide) (by rfl) (MacroTable.expand_plain (by decide) _),
    Reading.splice_token (by decide) (by decide) (by decide), Reading.splice.eq_1]
  rfl

theorem compile_flattened_doubling :
    Text.join " " (doublingTokens.map (·.text)) = "1 DUP PLUS PRINT_INT" ∧
    outcome (compile (.ofList "/" []) "b" "1 DUP PLUS PRINT_INT" 64)
      = outcome (compile doublingFiles "a" doubling 64) ∧
    ∃ r, compile doublingFiles "a" doubling 64 = .ok r := by
  refine ⟨by decide, compile_flattened source_doubling (.ofList "/" []) "b" 64, ?_⟩
  obtain ⟨a, ha⟩ := exists_compile doublingFiles source_doubling rfl (Check.run_of_steps rfl) rfl 64
  exact ⟨_, ha⟩

end StackLang
