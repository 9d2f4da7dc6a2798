import StackLang.Compile
import StackLang.Proofs.Scanning
import StackLang.Proofs.Splicing

/-!
# What the front end hands on

Tokens that come out of a source are sound: a quoted literal has a value, an array has elements, and
no token has an unassigned kind. The lexer establishes this, and macros and included files keep it.
So the operations of a compiled program have actions that every later stage knows, and their data
can be decoded. A stage that refuses its input does so for the input's own fault, and blames a place
of it: never because something is not implemented, and never by an inconsistent assembly text.

- `Delivers`: what a stage hands on when it fails for the fault of its input only.
- `Reading.refused_of_run`, `Reading.marked_of_run`: where a source is refused, and where the tokens
  of one are.
- `Reading.delivers_kept`: what holds of the tokens of every file holds of those of a source.
- `Reading.delivers_source`: the tokens of a source are sound.
- `Program.ends_ofTokens`, `Check.ends_run`: operations made from sound tokens, and their check.
-/

set_option autoImplicit false

namespace StackLang

/-- A failure that the source, its files or its block structure account for. -/
def Failure.Expected : Failure → Prop
  | .error e => e.cause.kind ≠ .notImplemented
  | .inconsistent _ _ => False
  | .unreadable _ _ _ | .outOfTable => True

/-- A stage delivers results in `P`, or fails as expected. -/
abbrev Delivers {α : Type} (P : α → Prop) (x : Except Failure α) : Prop :=
  Ends Failure.Expected P x

theorem Failure.Blames.kind_mem {kinds : List ErrorKind} {c : Cause} {loc loc' : Location}
    (h : (c.at loc).Blames kinds loc') : c.kind ∈ kinds := by
  obtain ⟨c', hc, hk⟩ := h
  cases hc
  exact hk

theorem Failure.Blames.expected {kinds : List ErrorKind} {loc : Location} {f : Failure}
    (h : f.Blames kinds loc) (hk : .notImplemented ∉ kinds) : f.Expected := by
  obtain ⟨c, rfl, hc⟩ := h
  exact fun hkind => hk (hkind ▸ hc)

/-- A token whose literal has been checked. -/
def Token.Sound (t : Token) : Prop :=
  match t.kind with
  | .string | .cstring => ∃ bytes, Literal.unquote t.text = .ok bytes
  | .array => ∃ elements, Literal.elements t.text = .ok elements
  | .unassigned _ => False
  | _ => True

/-- The place of a token does not matter. -/
theorem Token.Sound.at {t : Token} (h : t.Sound) (loc : Location) :
    Token.Sound { t with loc := loc } := h

/-- Tokens that are sound. -/
abbrev SoundTokens : List Token → Prop := TokensIn Token.Sound

/-! ## The lexer -/

namespace Lexer

theorem sound_of_classify {chars : List Char} {kind : TokenKind} {text : Text}
    (h : classify chars = .ok (kind, text)) (loc : Location) : Token.Sound ⟨kind, text, loc⟩ := by
  unfold classify at h
  dsimp only at h
  split at h
  · cases h
    trivial
  split at h
  · split at h
    · rename_i elements he
      cases h
      exact ⟨elements, he⟩
    · cases h
  split at h
  · cases h
    trivial
  split at h
  · cases h
    trivial
  split at h
  · split at h
    · rename_i bytes hb
      cases h
      split
      · exact ⟨bytes, hb⟩
      · exact ⟨bytes, hb⟩
    · cases h
  split at h
  · split at h
    · cases h
      trivial
    · cases h
  split at h
  · cases h
    trivial
  · cases h
    trivial

/-- What holds of every token that is read holds of all of them. -/
theorem delivers_tokens {P : Token → Prop} {file : Text} (source : Text)
    (htok : ∀ pos c cs t more, CharClass.isSpace c = false → atComment (c :: cs) = false →
      token file pos (c :: cs) = .ok (t, more) → P t) :
    Delivers (TokensIn P) (tokens file source) := by
  refine ends_scan (fun before rest h hb => ?_) .start
  cases ht : token file (Position.start.after before) rest with
  | error f =>
    obtain ⟨_, _, -, hf⟩ := refuses_token h hb ht
    exact hf.expected (by decide)
  | ok r =>
    cases rest with
    | nil => exact hb.elim
    | cons c cs => exact htok _ c cs r.1 r.2 hb.1 hb.2 ht

theorem delivers_sound (file source : Text) : Delivers SoundTokens (tokens file source) := by
  refine delivers_tokens source fun pos c cs t more _ _ ht => ?_
  obtain ⟨n, kind, text, -, hk, rfl, -⟩ := token_ok ht
  exact sound_of_classify hk _

end Lexer

/-! ## Sources -/

namespace MacroTable

variable {table : MacroTable}

/-- A body that names no macros stands for its tokens, at the place of the word. -/
theorem expand_plain {m : MacroDef} (h : ∀ t ∈ m.body, table.ofToken? t = none) (site : Location) :
    table.expand site m = .ok (m.body.map fun t => { t with loc := site }) := by
  unfold expand
  generalize m.body = body, [m.name] = active at h ⊢
  induction body with
  | nil => rw [expandBody, List.map_nil]
  | cons t body ih =>
    obtain ⟨ht, hbody⟩ := List.forall_mem_cons.1 h
    rw [expandBody]
    split
    · rw [ih hbody]
      rfl
    · rename_i m' hm'
      cases ht.symm.trans hm'

end MacroTable

/-- A token with a property that is left when definitions and inclusions are gone. -/
def Token.Kept (P : Token → Prop) (t : Token) : Prop :=
  P t ∧ t.isKeyword "MACRO" = false ∧ t.isKeyword "INCLUDE" = false

theorem Token.isKeyword_at (t : Token) (loc : Location) (word : Text) :
    Token.isKeyword { t with loc := loc } word = t.isKeyword word := rfl

namespace Reading

/-- The kinds of errors for which a source is refused. -/
def errorKinds : List ErrorKind :=
  [.invalidLiteral, .unterminatedMacro, .recursiveMacro, .circularInclude]

section
variable {lib : Library} {st : Reading} {file content : Text} {evs : List Event}
  {e : Option Failure}

/-- A marked place of one of some files. -/
def MarkedIn (files : List (Text × Text)) (loc : Location) : Prop :=
  ∃ path text before rest, (path, text) ∈ files ∧
    Lexer.Marked (Utf8.decode text) before rest ∧ loc = Lexer.placeAfter path before

/-- The tokens of a file begin at marked places of it. -/
theorem marked_of_token {files : List (Text × Text)} (hf : (file, content) ∈ files)
    {tokens : List Token} (h : Lexer.tokens file content = .ok tokens) {t : Token}
    (ht : t ∈ tokens) : MarkedIn files t.loc := by
  obtain ⟨before, rest, hs, hb, hloc⟩ := (Lexer.ends_tokens file content).of_ok h t ht
  exact ⟨file, content, before, rest, hf, .token hs hb, hloc⟩

/-- A piece of a file fails at a marked place, or because a file cannot be read. -/
theorem refused_of_from {files : List (Text × Text)} (hfile : (file, content) ∈ files) {i : Piece}
    (hi : i ∈ Piece.ofSource file content) {f : Failure} (hf : f.From lib i) :
    (∃ name path loc reason, i = .inclusion name path loc ∧ lib.read path = .error reason ∧
      f = .unreadable loc path reason) ∨
    ∃ loc, MarkedIn files loc ∧ f.Blames errorKinds loc := by
  rcases Piece.of_mem_ofSource hi with ⟨tokens, ht, hin⟩ | ⟨f', hf', rfl⟩
  · cases i with
    | definition m => exact hf.elim
    | token t =>
      obtain ⟨table, hstands⟩ := hf
      obtain ⟨name, rfl⟩ := MacroTable.error_of_standsFor hstands
      exact .inr ⟨t.loc, marked_of_token hfile ht hin.1, _, rfl, by simp [Cause.kind, errorKinds]⟩
    | inclusion name path loc =>
      obtain ⟨t, hmem, rfl⟩ := hin
      rcases hf with rfl | ⟨reason, hread, rfl⟩
      · exact .inr ⟨t.loc, marked_of_token hfile ht hmem, _, rfl, by simp [Cause.kind, errorKinds]⟩
      · exact .inl ⟨name, path, t.loc, reason, rfl, hread, rfl⟩
    | malformed f' =>
      obtain rfl : f = f' := hf
      obtain ⟨c, t, hmem, hc, hk⟩ := hin
      refine .inr ⟨t.loc, marked_of_token hfile ht hmem, c, hc, ?_⟩
      rcases List.mem_pair.1 hk with hk | hk <;> simp [hk, errorKinds]
  · obtain rfl : f = f' := hf
    obtain ⟨before, rest, hmark, c, hc, hk⟩ := (Lexer.ends_tokens file content).of_error hf'
    exact .inr ⟨_, ⟨file, content, before, rest, hfile, hmark, rfl⟩, c, hc,
      List.mem_cons.2 (.inl (List.mem_singleton.1 hk))⟩

/-- **A source is refused at a marked place of one of its files**, or because a file that it includes
cannot be read. -/
theorem refused_of_run {f : Failure} (h : Run lib st file content evs (some f)) :
    (∃ name path loc reason, .inclusion name path loc ∈ met (Piece.ofSource file content) evs ∧
      lib.read path = .error reason ∧ f = .unreadable loc path reason) ∨
    ∃ loc, MarkedIn (filesOf file content evs) loc ∧ f.Blames errorKinds loc := by
  obtain ⟨i, hi, hf⟩ := h.failure_met
  obtain ⟨path, text, hfile, hi'⟩ := mem_met_ofSource.1 hi
  rcases refused_of_from hfile hi' hf with ⟨name, path, loc, reason, rfl, hread⟩ | hmarked
  · exact .inl ⟨name, path, loc, reason, hi, hread⟩
  · exact .inr hmarked

/-- The tokens of a source are at marked places of its files. -/
theorem marked_of_run (h : Run lib st file content evs e) {t : Token}
    (ht : t ∈ evs.flatMap Event.out) : MarkedIn (filesOf file content evs) t.loc := by
  have hsite : ∀ t : Token, .token t ∈ met (Piece.ofSource file content) evs →
      MarkedIn (filesOf file content evs) t.loc := by
    intro t ht
    obtain ⟨path, text, hfile, hi⟩ := mem_met_ofSource.1 ht
    obtain ⟨tokens, htokens, hin⟩ := Piece.of_token_mem hi
    exact marked_of_token hfile htokens hin.1
  rcases h.mem_out ht with ht | ⟨m, site, b, -, hs, -, rfl⟩
  · exact hsite t ht
  · exact hsite site hs

theorem expected_of_run {f : Failure} (h : Run lib st file content evs (some f)) : f.Expected := by
  rcases refused_of_run h with ⟨_, _, _, _, -, -, rfl⟩ | ⟨_, -, hblame⟩
  · trivial
  · exact hblame.expected (by decide)

/-- **What the lexer gives, a source keeps**, and no directive is left. -/
theorem delivers_kept {P : Token → Prop} (hloc : ∀ t loc, P t → P { t with loc := loc })
    (hlex : ∀ file source, Delivers (TokensIn P) (Lexer.tokens file source)) (lib : Library)
    (file content : Text) : Delivers (TokensIn (Token.Kept P)) (source lib {} file content).1 := by
  obtain ⟨evs, e, hrun, hres⟩ := exists_run lib {} file content
  rw [hres]
  cases e with
  | some f => exact expected_of_run hrun
  | none =>
    intro t ht
    rcases hrun.mem_out ht with ht | ⟨m, site, b, hm, -, hb, rfl⟩
    · obtain ⟨path, text, -, hi⟩ := mem_met_ofSource.1 ht
      obtain ⟨tokens, htokens, hin⟩ := Piece.of_token_mem hi
      exact ⟨(hlex path text).of_ok htokens t hin.1, hin.2⟩
    · have hdef : .definition m ∈ met (Piece.ofSource file content) evs := by
        rcases hm with hm | hm
        · cases hm
        · exact hm
      obtain ⟨path, text, -, hi⟩ := mem_met_ofSource.1 hdef
      obtain ⟨tokens, htokens, hin⟩ := Piece.of_definition_mem hi
      obtain ⟨hmem, hstop⟩ := hin b hb
      simp only [MacroDef.stopsBody, Bool.or_eq_false_iff] at hstop
      rw [Token.Kept, Token.isKeyword_at, Token.isKeyword_at]
      exact ⟨hloc b _ ((hlex path text).of_ok htokens b hmem), hstop.1.2, hstop.2⟩

end

section
variable {lib : Library} {visited : List Text} {file : Text} {st : Reading} {t : Token}
  {rest : List Token}

theorem splice_define {m : MacroDef} {after : List Token} (hk : t.isKeyword "MACRO" = true)
    (hr : MacroDef.read t rest = .ok (m, after)) : splice lib visited file st (t :: rest)
      = splice lib visited file { st with macros := st.macros.insert m } after := by
  rw [splice.eq_def]
  simp only [hk, if_true]
  split
  · rename_i e he
    cases hr.symm.trans he
  · rename_i m' after' h
    cases hr.symm.trans h
    rfl

variable (hm : t.isKeyword "MACRO" = false)
include hm

theorem splice_include {name : Token} {after inner included : List Token} {path content : Text}
    {mem : lib.key path ∈ lib.files} {new : lib.key path ∉ visited} {st' st'' : Reading}
    (hi : t.isKeyword "INCLUDE" = true) (hn : name.kind = .string)
    (ho : openFile lib visited file st name = (.fresh path content mem new, st'))
    (hl : Lexer.tokens path content = .ok inner)
    (hs : splice lib (lib.key path :: visited) path st' inner = (.ok included, st'')) :
    splice lib visited file st (t :: name :: after)
      = prepend included (splice lib visited file st'' after) := by
  rw [splice.eq_def]
  simp [hm, hi, hn, ho, hl, hs]

variable (hi : t.isKeyword "INCLUDE" = false)
include hi

theorem splice_token (hn : st.macros.ofToken? t = none) : splice lib visited file st (t :: rest)
    = prepend [t] (splice lib visited file st rest) := by
  rw [splice.eq_def]
  simp [hm, hi, hn]

theorem splice_call {m : MacroDef} {expanded : List Token} (hn : st.macros.ofToken? t = some m)
    (he : st.macros.expand t.loc m = .ok expanded) : splice lib visited file st (t :: rest)
      = prepend expanded (splice lib visited file st rest) := by
  rw [splice.eq_def]
  simp [hm, hi, hn, he]

end

/-- Without definitions, inclusions and macros the tokens stand for themselves. -/
theorem splice_plain (lib : Library) (visited : List Text) (file : Text) (seen : List Text)
    {tokens : List Token}
    (h : ∀ t ∈ tokens, t.isKeyword "MACRO" = false ∧ t.isKeyword "INCLUDE" = false) :
    splice lib visited file { seen } tokens = (.ok tokens, { seen }) := by
  induction tokens with
  | nil => rw [splice]
  | cons t ts ih =>
    obtain ⟨⟨hm, hn⟩, hts⟩ := List.forall_mem_cons.1 h
    have hnone : MacroTable.ofToken? [] t = none := by simp [MacroTable.ofToken?, MacroTable.find?]
    rw [splice_token hm hn hnone, ih hts]
    rfl

/-- **A source delivers sound tokens.** -/
theorem delivers_source (lib : Library) (file content : Text) :
    Delivers SoundTokens (source lib {} file content).1 :=
  (delivers_kept (fun _ loc h => h.at loc) Lexer.delivers_sound lib file content).mono
    fun _ h => h.mono fun _ hk => hk.1

end Reading

/-! ## Operations -/

/-- An operation whose action is known and whose literal has been checked. -/
def Operation.Sound (op : Operation) : Prop :=
  match op.action with
  | .pushString | .pushCString => ∃ bytes, Literal.unquote op.token.text = .ok bytes
  | .pushArray => ∃ elements, Literal.elements op.token.text = .ok elements
  | .unassigned _ | .primitive (.unassigned _) => False
  | _ => True

/-- A program of sound operations. -/
def Program.Sound (prog : Program) : Prop := ∀ op ∈ prog, op.Sound

theorem Primitive.ne_unassigned_of_ofName? {t : Text} {p : Primitive} (h : ofName? t = some p)
    (code : Int) : p ≠ .unassigned code := by
  rintro rfl
  have hm := List.mem_of_find?_eq_some h
  simp [Primitive.all] at hm

theorem Action.ends_ofToken {t : Token} (ht : t.Sound) (index : Int) :
    Ends (Failure.Blames [.unknownOperation, .invalidLiteral] t.loc)
      (fun a => Operation.Sound ⟨index, a, t⟩) (Action.ofToken t) := by
  unfold Action.ofToken
  split
  · split
    · trivial
    · exact ends_error (by simp [Cause.kind])
  · split
    · trivial
    · exact ends_error (by simp [Cause.kind])
  · split
    · trivial
    · exact ends_error (by simp [Cause.kind])
  · rename_i hk
    simp only [Token.Sound, hk] at ht
    exact ht
  · rename_i hk
    simp only [Token.Sound, hk] at ht
    exact ht
  · rename_i hk
    simp only [Token.Sound, hk] at ht
    exact ht
  · split
    · rename_i p hp
      have hne := Primitive.ne_unassigned_of_ofName? hp
      cases p <;> first | trivial | exact absurd rfl (hne _)
    · exact ends_error (by simp [Cause.kind])
  · rename_i hk
    simp [Token.Sound, hk] at ht

namespace Program

/-- A failure that one of the tokens has no action. -/
def Misread (tokens : List Token) (f : Failure) : Prop := ∃ t ∈ tokens, Action.ofToken t = .error f

theorem Misread.blames {tokens : List Token} {f : Failure} (h : Misread tokens f)
    (ht : SoundTokens tokens) :
    ∃ t ∈ tokens, f.Blames [.unknownOperation, .invalidLiteral] t.loc := by
  obtain ⟨t, hmem, hf⟩ := h
  exact ⟨t, hmem, (Action.ends_ofToken (ht t hmem) 0).of_error hf⟩

theorem ends_ofTokensFrom {tokens : List Token} (ht : SoundTokens tokens) (start : Nat) :
    Ends (Misread tokens) (fun prog => prog.Sound ∧ prog.map (·.token) = tokens)
      (ofTokensFrom start tokens) := by
  induction tokens generalizing start with
  | nil => exact ⟨List.forall_mem_nil _, rfl⟩
  | cons t ts ih =>
    have hact := Action.ends_ofToken ht.head start
    unfold ofTokensFrom
    split
    · rename_i e he
      exact ⟨t, .head _, he⟩
    · rename_i action ha
      have hrest := (ih ht.tail (start + 1)).weaken
        fun f ⟨u, hu, hf⟩ => (⟨u, .tail _ hu, hf⟩ : Misread (t :: ts) f)
      refine hrest.map fun prog hp => ⟨?_, ?_⟩
      · exact List.forall_mem_cons.2 ⟨hact.of_ok ha, hp.1⟩
      · rw [List.map_cons, hp.2]

/-- **The operations of sound tokens are sound**, one for each token. -/
theorem ends_ofTokens {tokens : List Token} (ht : SoundTokens tokens) :
    Ends (Misread tokens) (fun prog => prog.Sound ∧ prog.map (·.token) = tokens)
      (ofTokens tokens) := ends_ofTokensFrom ht 0

theorem delivers_ofTokens {tokens : List Token} (ht : SoundTokens tokens) :
    Delivers Program.Sound (ofTokens tokens) := by
  refine ((ends_ofTokens ht).mono fun _ hp => hp.1).weaken fun f hf => ?_
  obtain ⟨t, -, hblame⟩ := hf.blames ht
  exact hblame.expected (by decide)

end Program

/-! ## The check of the stack -/

namespace Check

/-- The kinds of errors for which an operation is refused. -/
def errorKinds : List ErrorKind :=
  [.stackUnderflow, .operandTypeMismatch, .divisionByZero, .stackIndexError, .invalidLiteral]

theorem ends_operands (op : Operation) (ps : List Pattern) (stack : StackLang.Stack) :
    Ends (Failure.Blames errorKinds op.loc) (fun _ => True) (operands op ps stack) := by
  unfold operands
  split
  · exact ends_error (by simp [Cause.kind, errorKinds])
  split
  · exact ends_error (by simp [Cause.kind, errorKinds])
  · trivial

theorem ends_division (op : Operation) (p : Primitive) (a b : Option Int64) :
    Ends (Failure.Blames errorKinds op.loc) (fun _ => True) (division op p a b) := by
  unfold division
  split
  · split
    · exact ends_error (by simp [Cause.kind, errorKinds])
    · split <;> trivial
  · split <;> trivial

theorem ends_primitiveResults (op : Operation) (p : Primitive) (vs : List Value) :
    Ends (Failure.Blames errorKinds op.loc) (fun _ => True) (primitiveResults op p vs) := by
  unfold primitiveResults
  split
  case h_1 => exact ends_division op _ _ _
  case h_2 => exact ends_division op _ _ _
  case h_3 => exact ends_division op _ _ _
  case h_18 => split <;> trivial
  all_goals trivial

theorem ends_results (op : Operation) (vs : List Value) :
    Ends (Failure.Blames errorKinds op.loc) (fun _ => True) (results op vs) := by
  unfold results
  split
  case h_6 =>
    split
    · exact ends_error (by simp [Cause.kind, errorKinds])
    · trivial
  case h_9 => exact ends_primitiveResults op _ vs
  all_goals trivial

theorem ends_nth (op : Operation) (index : Value) (stack : StackLang.Stack) :
    Ends (Failure.Blames errorKinds op.loc) (fun _ => True) (nth op index stack) := by
  unfold nth
  split
  · split
    · exact ends_error (by simp [Cause.kind, errorKinds])
    · split
      · trivial
      · exact ends_error (by simp [Cause.kind, errorKinds])
  · exact ends_error (by simp [Cause.kind, errorKinds])

theorem ends_step {op : Operation} (ho : op.Sound) (stack : StackLang.Stack) :
    Ends (Failure.Blames errorKinds op.loc) (fun _ => True) (step op stack) := by
  have hknown : isUnknown op.action = false := by
    unfold Operation.Sound at ho
    cases ha : op.action with
    | unassigned code => simp [ha] at ho
    | primitive p => cases p <;> simp_all [isUnknown]
    | _ => rfl
  have hops := ends_operands op (patterns op.action) stack
  unfold step
  rw [hknown, if_neg (by simp)]
  split
  · rename_i e he
    exact hops.of_error he
  · split
    · split
      · exact (ends_nth op _ _).map fun _ _ => trivial
      · trivial
    · exact (ends_results op _).map fun _ _ => trivial

/-- A failure that blames an operation of a program. -/
def Refuses (prog : Program) (f : Failure) : Prop := ∃ op ∈ prog, f.Blames errorKinds op.loc

theorem ends_steps {prog : Program} (hp : prog.Sound) (stack : StackLang.Stack) :
    Ends (Refuses prog) (fun _ => True) (steps prog stack) := by
  induction prog generalizing stack with
  | nil => trivial
  | cons op prog ih =>
    have hstep := ends_step (hp op (by simp)) stack
    simp only [steps, List.foldlM_cons]
    cases hs : step op stack with
    | error e => exact ⟨op, .head _, hstep.of_error hs⟩
    | ok next =>
      refine (ih (fun o ho => hp o (by simp [ho])) next).weaken fun f hf => ?_
      obtain ⟨o, ho, hf⟩ := hf
      exact ⟨o, .tail _ ho, hf⟩

/-- **The check of a sound program blames one of its operations**, if any. -/
theorem ends_run {prog : Program} (hp : prog.Sound) :
    Ends (Refuses prog) (fun a => a.statics = statics prog) (run prog) :=
  (ends_steps hp []).map fun _ _ => rfl

theorem delivers_run {prog : Program} (hp : prog.Sound) :
    Delivers (fun a => a.statics = statics prog) (run prog) :=
  (ends_run hp).weaken fun _ ⟨_, _, hf⟩ => hf.expected (by decide)

end Check

end StackLang
