import StackLang.Include

/-!
# What files are made of

The tokens of a file are a row of pieces: tokens that stand for themselves or for a macro,
definitions, and inclusions. Where a definition or an inclusion is not complete, or a token cannot
be read, the row ends with the failure.

- `Piece.ofSource`: the pieces of a file; `Piece.Within`: what its tokens leave in them.
- `MacroTable.standsFor`: what a token comes to; `MacroTable.mem_of_standsFor`: a token of a body, or
  the token itself, at its place.
-/

set_option autoImplicit false

namespace StackLang

/-! ## Pieces -/

/-- The path of a file that is named in another one. -/
def Path.beside (file name : Text) : Text := Path.join (Path.dir file) name

/-- A piece of a file. -/
inductive Piece where
  /-- A token outside definitions and inclusions. -/
  | token (t : Token)
  | definition (m : MacroDef)
  /-- The inclusion of the file at a path, and where it is named. -/
  | inclusion (name path : Text) (loc : Location)
  /-- Where the file is refused; it is not read on. -/
  | malformed (f : Failure)

namespace Piece

/-- The pieces of the tokens of a file. -/
def ofTokens (file : Text) (tokens : List Token) : List Piece :=
  match tokens with
  | [] => []
  | t :: rest =>
    if t.isKeyword "MACRO" then
      match _h : MacroDef.read t rest with
      | .error f => [malformed f]
      | .ok (m, after) => definition m :: ofTokens file after
    else if t.isKeyword "INCLUDE" then
      match rest with
      | [] => [malformed (Cause.includeWithoutName.at t.loc)]
      | name :: after =>
        if name.kind ≠ .string then [malformed (Cause.includeWithoutName.at t.loc)]
        else
          match Literal.unquote name.text with
          | .error fault => [malformed ((Cause.badLiteral fault).at name.loc)]
          | .ok target => inclusion target (Path.beside file target) name.loc :: ofTokens file after
    else token t :: ofTokens file rest
termination_by tokens.length
decreasing_by
  · have := MacroDef.length_of_read _h
    simp only [List.length_cons]
    omega
  · simp only [List.length_cons]
    omega
  · simp

section
variable (file : Text) {t name : Token} {rest after : List Token}

/-- The pieces from a definition on. -/
theorem ofTokens_define (hk : t.isKeyword "MACRO" = true) :
    ofTokens file (t :: rest) = match MacroDef.read t rest with
      | .error f => [malformed f]
      | .ok (m, after) => definition m :: ofTokens file after := by
  rw [ofTokens.eq_def]
  simp only [hk, if_true]
  split <;> rename_i h <;> rw [h]

variable (hk : ¬t.isKeyword "MACRO" = true)
include hk

/-- The pieces from an inclusion on. -/
theorem ofTokens_include (hi : t.isKeyword "INCLUDE" = true) (hn : ¬name.kind ≠ .string) :
    ofTokens file (t :: name :: after) = match Literal.unquote name.text with
      | .error fault => [malformed ((Cause.badLiteral fault).at name.loc)]
      | .ok target => inclusion target (Path.beside file target) name.loc :: ofTokens file after := by
  rw [ofTokens, if_neg hk, if_pos hi, if_neg hn]

theorem ofTokens_token (hi : ¬t.isKeyword "INCLUDE" = true) :
    ofTokens file (t :: rest) = token t :: ofTokens file rest := by
  rw [ofTokens.eq_def]
  simp only [hk, hi, if_false, Bool.false_eq_true]

end

/-- The pieces of a file with a text. -/
def ofSource (file content : Text) : List Piece :=
  match Lexer.tokens file content with
  | .error f => [malformed f]
  | .ok tokens => ofTokens file tokens

/-- The token of a piece that is one. -/
def token? : Piece → Option Token
  | token t => some t
  | _ => none

/-- What the tokens of a file leave in a piece: directives are gone, and failures are at tokens. -/
def Within (tokens : List Token) : Piece → Prop
  | token t => t ∈ tokens ∧ t.isKeyword "MACRO" = false ∧ t.isKeyword "INCLUDE" = false
  | definition m => ∀ t ∈ m.body, t ∈ tokens ∧ MacroDef.stopsBody t = false
  | inclusion _ _ loc => ∃ t ∈ tokens, t.loc = loc
  | malformed f => ∃ c : Cause, ∃ t ∈ tokens, f = c.at t.loc ∧
      c.kind ∈ [ErrorKind.invalidLiteral, .unterminatedMacro]

theorem Within.mono {tokens tokens' : List Token} {i : Piece} (h : i.Within tokens)
    (hs : tokens ⊆ tokens') : i.Within tokens' := by
  cases i with
  | token t => exact ⟨hs h.1, h.2⟩
  | definition m => exact fun t ht => ⟨hs (h t ht).1, (h t ht).2⟩
  | inclusion name path loc =>
    obtain ⟨t, ht, hl⟩ := h
    exact ⟨t, hs ht, hl⟩
  | malformed f =>
    obtain ⟨c, t, ht, hf⟩ := h
    exact ⟨c, t, hs ht, hf⟩

theorem within_read_error {start : Token} {tokens : List Token} {f : Failure}
    (h : MacroDef.read start tokens = .error f) : (malformed f).Within (start :: tokens) := by
  unfold MacroDef.read at h
  split at h
  · cases h
    exact ⟨_, start, .head _, rfl, by simp [Cause.kind]⟩
  rename_i name rest
  split at h
  · cases h
    exact ⟨_, name, .tail _ (.head _), rfl, by simp [Cause.kind]⟩
  split at h
  · cases h
    exact ⟨_, start, .head _, rfl, by simp [Cause.kind]⟩
  rename_i stop after hd
  split at h
  · cases h
  · cases h
    have hstop : stop ∈ rest :=
      (List.dropWhile_sublist _).subset (hd.symm ▸ List.mem_cons_self : stop ∈ rest.dropWhile _)
    exact ⟨_, stop, .tail _ (.tail _ hstop), rfl, by simp [Cause.kind]⟩

theorem within_read_ok {start : Token} {tokens after : List Token} {m : MacroDef}
    (h : MacroDef.read start tokens = .ok (m, after)) :
    (definition m).Within tokens ∧ after ⊆ tokens := by
  unfold MacroDef.read at h
  split at h
  · cases h
  rename_i name rest
  split at h
  · cases h
  split at h
  · cases h
  rename_i stop after' hd
  split at h
  · cases h
    refine ⟨fun t ht => ⟨.tail _ ((List.takeWhile_sublist _).subset ht), ?_⟩, fun t ht => ?_⟩
    · simpa using List.all_eq_true.1 List.all_takeWhile t ht
    · have hmem : t ∈ rest.dropWhile fun t => !MacroDef.stopsBody t := hd ▸ .tail _ ht
      exact .tail _ ((List.dropWhile_sublist _).subset hmem)
  · cases h

/-- Pieces are made from the tokens of their file. -/
theorem within_of_mem_ofTokens {file : Text} {tokens : List Token} {i : Piece}
    (h : i ∈ ofTokens file tokens) : i.Within tokens := by
  fun_induction ofTokens file tokens with
  | case1 => cases h
  | case2 t rest hk f hr =>
    obtain rfl := List.mem_singleton.1 h
    exact within_read_error hr
  | case3 t rest hk m after hr ih =>
    have hread := within_read_ok hr
    rcases List.mem_cons.1 h with rfl | h
    · exact hread.1.mono (List.subset_cons_self _ _)
    · exact (ih h).mono (List.subset_cons_of_subset _ hread.2)
  | case4 t hk hi =>
    obtain rfl := List.mem_singleton.1 h
    exact ⟨_, t, .head _, rfl, by simp [Cause.kind]⟩
  | case5 t hk hi name after hn =>
    obtain rfl := List.mem_singleton.1 h
    exact ⟨_, t, .head _, rfl, by simp [Cause.kind]⟩
  | case6 t hk hi name after hn fault hu =>
    obtain rfl := List.mem_singleton.1 h
    exact ⟨_, name, .tail _ (.head _), rfl, by simp [Cause.kind]⟩
  | case7 t hk hi name after hn target hu ih =>
    rcases List.mem_cons.1 h with rfl | h
    · exact ⟨name, .tail _ (.head _), rfl⟩
    · exact (ih h).mono fun x hx => .tail _ (.tail _ hx)
  | case8 t rest hk hi ih =>
    rcases List.mem_cons.1 h with rfl | h
    · exact ⟨.head _, Bool.eq_false_iff.2 hk, Bool.eq_false_iff.2 hi⟩
    · exact (ih h).mono (List.subset_cons_self _ _)

/-- The pieces of a file: made from its tokens, or the reason why it has none. -/
theorem of_mem_ofSource {file content : Text} {i : Piece} (h : i ∈ ofSource file content) :
    (∃ tokens, Lexer.tokens file content = .ok tokens ∧ i.Within tokens) ∨
      ∃ f, Lexer.tokens file content = .error f ∧ i = malformed f := by
  unfold ofSource at h
  split at h
  · rename_i f hf
    exact .inr ⟨f, hf, List.mem_singleton.1 h⟩
  · rename_i tokens ht
    exact .inl ⟨tokens, ht, within_of_mem_ofTokens h⟩

theorem of_token_mem {file content : Text} {t : Token} (h : token t ∈ ofSource file content) :
    ∃ tokens, Lexer.tokens file content = .ok tokens ∧ (token t).Within tokens := by
  rcases of_mem_ofSource h with hin | ⟨f, -, hf⟩
  · exact hin
  · cases hf

theorem of_definition_mem {file content : Text} {m : MacroDef}
    (h : definition m ∈ ofSource file content) :
    ∃ tokens, Lexer.tokens file content = .ok tokens ∧ (definition m).Within tokens := by
  rcases of_mem_ofSource h with hin | ⟨f, -, hf⟩
  · exact hin
  · cases hf

end Piece

/-! ## What a token stands for -/

namespace MacroTable

/-- The tokens that a token outside definitions stands for: itself, or what its macro says. -/
def standsFor (table : MacroTable) (t : Token) : Except Failure (List Token) :=
  match table.ofToken? t with
  | none => .ok [t]
  | some m => table.expand t.loc m

variable {table : MacroTable} {t : Token}

theorem mem_of_ofToken? {m : MacroDef} (h : table.ofToken? t = some m) : m ∈ table := by
  unfold ofToken? at h
  split at h
  · exact List.mem_of_find?_eq_some h
  · cases h

/-- Expanding a body leaves tokens of bodies, at the place of the word. -/
theorem mem_of_expandBody {site : Location} {active : List Text} {body out : List Token}
    (h : table.expandBody site active body = .ok out) {o : Token} (ho : o ∈ out) :
    ∃ b, (b ∈ body ∨ ∃ m ∈ table, b ∈ m.body) ∧ o = { b with loc := site } := by
  fun_induction expandBody table site active body generalizing out with
  | case1 =>
    cases h
    cases ho
  | case2 active t rest hn ih =>
    obtain ⟨ts, hts, rfl⟩ := Failure.of_map_ok h
    rcases List.mem_cons.1 ho with rfl | ho
    · exact ⟨t, .inl (.head _), rfl⟩
    · obtain ⟨b, hb, hob⟩ := ih hts ho
      exact ⟨b, hb.imp_left (.tail _), hob⟩
  | case3 => cases h
  | case4 => cases h
  | case5 active t rest m hm hna inner hin ihin ih =>
    obtain ⟨ts, hts, rfl⟩ := Failure.of_map_ok h
    rcases List.mem_append.1 ho with ho | ho
    · obtain ⟨b, hb, hob⟩ := ihin hin ho
      exact ⟨b, .inr (hb.elim (fun hb => ⟨m, mem_of_ofToken? hm, hb⟩) id), hob⟩
    · obtain ⟨b, hb, hob⟩ := ih hts ho
      exact ⟨b, hb.imp_left (.tail _), hob⟩

/-- Expanding a body fails at the place of the word. -/
theorem error_of_expandBody {site : Location} {active : List Text} {body : List Token} {f : Failure}
    (h : table.expandBody site active body = .error f) :
    ∃ name, f = (Cause.recursiveMacro name).at site := by
  fun_induction expandBody table site active body with
  | case1 => cases h
  | case2 active t rest hn ih => exact ih (Failure.of_map_error h)
  | case3 active t rest m hm hna =>
    cases h
    exact ⟨m.name, rfl⟩
  | case4 active t rest m hm hna e he ih =>
    cases h
    exact ih he
  | case5 active t rest m hm hna inner hin ihin ih => exact ih (Failure.of_map_error h)

/-- A token stands for itself or for tokens of bodies, at its place. -/
theorem mem_of_standsFor {out : List Token} (h : table.standsFor t = .ok out) {o : Token}
    (ho : o ∈ out) : o = t ∨ ∃ m ∈ table, ∃ b ∈ m.body, o = { b with loc := t.loc } := by
  unfold standsFor at h
  split at h
  · cases h
    exact .inl (List.mem_singleton.1 ho)
  · rename_i m hm
    obtain ⟨b, hb, hob⟩ := mem_of_expandBody h ho
    rcases hb with hb | ⟨m', hm', hb⟩
    · exact .inr ⟨m, mem_of_ofToken? hm, b, hb, hob⟩
    · exact .inr ⟨m', hm', b, hb, hob⟩

theorem error_of_standsFor {f : Failure} (h : table.standsFor t = .error f) :
    ∃ name, f = (Cause.recursiveMacro name).at t.loc := by
  unfold standsFor at h
  split at h
  · cases h
  · exact error_of_expandBody h

end MacroTable

end StackLang
