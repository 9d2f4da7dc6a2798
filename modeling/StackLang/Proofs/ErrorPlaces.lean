import StackLang.Proofs.GeneratedAssembly

/-!
# Where a source is wrong

When compiling fails, some file that is included cannot be read, or the source is wrong at one place.
The place is in the source itself or in a file that was read for it, and it is told in rows and
columns of that file: a token begins there, or a quote opens text in an array.

- `refused_of_compile`: compiling fails at a marked place.
- `compile_error_located`: the same with the file and the characters written out.
-/

set_option autoImplicit false

namespace StackLang

/-! ## Failures of compiling -/

section
variable {lib : Library} {file source : Text} {wish : Int} {f : Failure}

/-- **Compiling fails at a marked place** of a file, or because an included file cannot be read. -/
theorem refused_of_compile {evs : List Event} {e : Option Failure}
    (hrun : Reading.Run lib {} file source evs e)
    (hres : (Reading.source lib {} file source).1 = Event.outcome evs e)
    (h : compile lib file source wish = .error f) :
    (∃ name path loc reason, .inclusion name path loc ∈ met (Piece.ofSource file source) evs ∧
      lib.read path = .error reason ∧ f = .unreadable loc path reason) ∨
    ∃ loc kinds, Reading.MarkedIn (Reading.filesOf file source evs) loc ∧ f.Blames kinds loc := by
  rw [compile, hres] at h
  cases e with
  | some f' =>
    obtain rfl : f' = f := Except.error.inj h
    rcases Reading.refused_of_run hrun with hread | ⟨loc, hmark, hblame⟩
    · exact .inl hread
    · exact .inr ⟨loc, _, hmark, hblame⟩
  | none =>
    have hsound := (Reading.delivers_source lib file source).of_ok hres
    rcases refused_of_compileTokens hsound h with hmis | ⟨t, ht, hblame⟩
    · obtain ⟨t, ht, hblame⟩ := hmis.blames hsound
      exact .inr ⟨t.loc, _, Reading.marked_of_run hrun ht, hblame⟩
    · exact .inr ⟨t.loc, _, Reading.marked_of_run hrun ht, hblame⟩

end

/-- **Every failure is located.** When compiling fails, a file that the source or one of its files
includes cannot be read, or the error is at a character of the source or of a file that was read: the
first one of a token, or a quote that opens text in an array. Its row counts the line breaks before
that character, its column the characters since the last one. -/
theorem compile_error_located {lib : Library} {file source : Text} {wish : Int} {f : Failure}
    (h : compile lib file source wish = .error f) :
    ∃ evs e, Reading.Run lib {} file source evs e ∧
      (Reading.source lib {} file source).1 = Event.outcome evs e ∧
      ((∃ name path loc reason, .inclusion name path loc ∈ met (Piece.ofSource file source) evs ∧
          lib.read path = .error reason ∧ f = .unreadable loc path reason) ∨
        ∃ cause path text before c rest, f = .error ⟨cause, path, before.count '\n' + 1,
            sinceBreak before + 1⟩ ∧
          ((path = file ∧ text = source) ∨
            (.opened path (.ok text) ∈ evs ∧ lib.read path = .ok text)) ∧
          Utf8.decode text = before ++ c :: rest ∧
          Lexer.Marked (Utf8.decode text) before (c :: rest)) := by
  obtain ⟨evs, e, hrun, hres⟩ := Reading.exists_run lib {} file source
  have hsource := congrArg Prod.fst hres
  refine ⟨evs, e, hrun, hsource, ?_⟩
  rcases refused_of_compile hrun hsource h with hread | ⟨loc, kinds, hmark, cause, rfl, -⟩
  · exact .inl hread
  · obtain ⟨path, text, before, rest, hfile, hmarked, rfl⟩ := hmark
    obtain ⟨hsplit, hne⟩ := hmarked.append_eq
    obtain ⟨c, rest, rfl⟩ := List.exists_cons_of_ne_nil hne
    refine .inr ⟨cause, path, text, before, c, rest, ?_, ?_, hsplit.symm, hmarked⟩
    · rw [Lexer.placeAfter_eq]
      rfl
    · rcases Reading.mem_filesOf.1 hfile with hroot | hopen
      · exact .inl hroot
      · exact .inr ⟨hopen, hrun.read_eq hopen⟩

/-- A source whose fault is in another file. -/
def misquoting : Text := "include \"m\""

def misquotingText : Text := "1\n array(x, \"y)"

def misquotingFiles : Library := .ofList "/" [("m", misquotingText)]

theorem run_misquoting : Reading.Run misquotingFiles {} "a" misquoting
    [.opened "m" (.ok misquotingText)]
    (some ((Cause.unterminatedLiteral "\"y)").at ⟨"m", 2, 11⟩)) := by
  have hl : Lexer.tokens "a" misquoting = .ok [⟨.keyword, "INCLUDE", ⟨"a", 1, 1⟩⟩,
      ⟨.string, "\"m\"", ⟨"a", 1, 9⟩⟩] := by decide +kernel
  have hm : Lexer.tokens "m" misquotingText
      = .error ((Cause.unterminatedLiteral "\"y)").at ⟨"m", 2, 11⟩) := by decide +kernel
  have hpieces : Piece.ofSource "a" misquoting = [.inclusion "m" "m" ⟨"a", 1, 9⟩] := by
    simp only [Piece.ofSource, hl]
    rw [Piece.ofTokens_include _ (by decide) (by decide) (by decide), Piece.ofTokens.eq_1]
    rfl
  rw [Reading.Run, hpieces]
  refine .failing ⟨by decide, by decide⟩ rfl ?_
  rw [Piece.ofSource, hm]
  exact .malformed

theorem compile_error_located_misquoting :
    compile misquotingFiles "a" misquoting 0
      = .error ((Cause.unterminatedLiteral "\"y)").at ⟨"m", 2, 11⟩) ∧
    ∃ before c rest, Utf8.decode misquotingText = before ++ c :: rest ∧
      Lexer.Marked (Utf8.decode misquotingText) before (c :: rest) ∧
      before.count '\n' + 1 = 2 ∧ sinceBreak before + 1 = 11 := by
  have hfail : compile misquotingFiles "a" misquoting 0
      = .error ((Cause.unterminatedLiteral "\"y)").at ⟨"m", 2, 11⟩) := by
    rw [compile, Reading.source_of_run run_misquoting]
    rfl
  refine ⟨hfail, ?_⟩
  obtain ⟨evs, e, hrun, -, ⟨_, _, _, _, -, -, hread⟩ | hplace⟩ := compile_error_located hfail
  · cases hread
  · obtain ⟨rfl, rfl⟩ := hrun.unique run_misquoting
    obtain ⟨cause, path, text, before, c, rest, hloc, hfile, hsplit, hmark⟩ := hplace
    simp only [Cause.at, Failure.error.injEq, Error.mk.injEq, Location.mk.injEq] at hloc
    obtain ⟨-, rfl, hrow, hcol⟩ := hloc
    obtain rfl : text = misquotingText := by
      rcases hfile with ⟨hroot, -⟩ | ⟨hopen, -⟩
      · exact absurd hroot (by decide)
      · simpa using hopen
    exact ⟨before, c, rest, hsplit, hmark, by omega, by omega⟩

end StackLang
