import Mathlib.Data.List.Nodup
import StackLang.Proofs.Pieces

/-!
# How files are spliced

A walk takes the pieces of a file in order, and the pieces of an included file in the place of the
inclusion. It leaves a row of events: what every token came to, what was defined, and which files
were opened.

- `Walk`: the rules of the walk, with its events and the failure that it may end in.
- `Reading.exists_run`: reading a source is a walk over its pieces.
- `Walk.unique`, `Walk.transfer`: the walk is determined by the files that it opens.
- `Walk.opens_once`: no file is opened twice.
- `Walk.faithful`: a token comes to what it stands for after all that comes before it.
- `Walk.event_met`, `Walk.failure_met`: a piece accounts for every event and every failure.
- `Walk.mem_out`: where the tokens of the result stem from.
-/

set_option autoImplicit false

namespace StackLang

/-! ## Events -/

/-- What happens on a walk. -/
inductive Event where
  /-- A token is replaced by what it stands for. -/
  | token (t : Token) (out : List Token)
  | definition (m : MacroDef)
  /-- A file is opened, with its text or why it cannot be read. -/
  | opened (path : Text) (result : Except Text Text)

namespace Event

/-- The tokens that an event contributes. -/
def out : Event → List Token
  | token _ out => out
  | _ => []

/-- The token that is replaced. -/
def site? : Event → Option Token
  | token t _ => some t
  | _ => none

/-- The file that is opened. -/
def path? : Event → Option Text
  | opened path _ => some path
  | _ => none

/-- The file that is read, with its text. -/
def file? : Event → Option (Text × Text)
  | opened path (.ok content) => some (path, content)
  | _ => none

/-- What a walk with some events comes to, when it ends in a failure or in none. -/
def outcome (events : List Event) : Option Failure → Except Failure (List Token)
  | none => .ok (events.flatMap out)
  | some f => .error f

theorem outcome_eq_error {events : List Event} {e : Option Failure} {f : Failure} :
    outcome events e = .error f ↔ e = some f := by
  cases e <;> simp [outcome]

theorem outcome_eq_ok {events : List Event} {e : Option Failure} {tokens : List Token} :
    outcome events e = .ok tokens ↔ e = none ∧ events.flatMap out = tokens := by
  cases e <;> simp [outcome]

end Event

/-- The keys of the files that are opened. -/
def Library.opened (lib : Library) (events : List Event) : List Text :=
  (events.filterMap Event.path?).map lib.key

namespace Reading

/-- What has been defined and read after an event. -/
def note (lib : Library) (st : Reading) : Event → Reading
  | .token _ _ => st
  | .definition m => { st with macros := st.macros.insert m }
  | .opened path _ => { st with seen := lib.key path :: st.seen }

/-- What has been defined and read after some events. -/
def after (lib : Library) (st : Reading) (events : List Event) : Reading :=
  events.foldl (note lib) st

theorem after_cons (lib : Library) (st : Reading) (ev : Event) (evs : List Event) :
    st.after lib (ev :: evs) = (st.note lib ev).after lib evs := rfl

theorem after_append (lib : Library) (st : Reading) (evs evs' : List Event) :
    st.after lib (evs ++ evs') = (st.after lib evs).after lib evs' := List.foldl_append

theorem mem_seen_after {lib : Library} {st : Reading} {evs : List Event} {key : Text} :
    key ∈ (st.after lib evs).seen ↔ key ∈ lib.opened evs ∨ key ∈ st.seen := by
  induction evs generalizing st with
  | nil => simp [after, Library.opened]
  | cons ev evs ih =>
    rw [after_cons, ih]
    cases ev with
    | token t out => rfl
    | definition m => rfl
    | opened path r =>
      simp only [note, Library.opened, Event.path?, List.filterMap_cons, List.map_cons,
        List.mem_cons]
      rw [or_left_comm, or_assoc]

theorem mem_macros_after {lib : Library} {st : Reading} {evs : List Event} {m : MacroDef}
    (h : m ∈ (st.after lib evs).macros) : m ∈ st.macros ∨ .definition m ∈ evs := by
  induction evs generalizing st with
  | nil => exact .inl h
  | cons ev evs ih =>
    rw [after_cons] at h
    rcases ih h with h | h
    · cases ev with
      | token t out => exact .inl h
      | opened path r => exact .inl h
      | definition m' =>
        rcases List.mem_cons.1 h with rfl | h
        · exact .inr (.head _)
        · exact .inl (List.mem_filter.1 h).1
    · exact .inr (.tail _ h)

/-- A file that is neither on the chain nor taken up before. -/
def Fresh (lib : Library) (chain : List Text) (st : Reading) (path : Text) : Prop :=
  lib.key path ∉ chain ∧ lib.key path ∉ st.seen

end Reading

/-! ## Walks -/

section
variable (lib : Library)

/-- The walk over pieces of a file to which the files in `chain` lead, itself among them. An inclusion
of a file on the chain fails; one of a file that was taken up before adds nothing; any other takes
the pieces of the file in its place. -/
inductive Walk : List Text → Reading → List Piece → List Event → Option Failure → Prop
  | done {chain : List Text} {st : Reading} : Walk chain st [] [] none
  | token {chain : List Text} {st : Reading} {t : Token} {out : List Token} {rest : List Piece}
    {evs : List Event} {e : Option Failure} (hout : st.macros.standsFor t = .ok out)
    (hrest : Walk chain st rest evs e) :
    Walk chain st (.token t :: rest) (.token t out :: evs) e
  | endless {chain : List Text} {st : Reading} {t : Token} {rest : List Piece} {f : Failure}
    (hout : st.macros.standsFor t = .error f) : Walk chain st (.token t :: rest) [] (some f)
  | definition {chain : List Text} {st : Reading} {m : MacroDef} {rest : List Piece}
    {evs : List Event} {e : Option Failure}
    (hrest : Walk chain (st.note lib (.definition m)) rest evs e) :
    Walk chain st (.definition m :: rest) (.definition m :: evs) e
  | malformed {chain : List Text} {st : Reading} {f : Failure} {rest : List Piece} :
    Walk chain st (.malformed f :: rest) [] (some f)
  | circular {chain : List Text} {st : Reading} {name path : Text} {loc : Location}
    {rest : List Piece} (hc : lib.key path ∈ chain) :
    Walk chain st (.inclusion name path loc :: rest) []
      (some ((Cause.circularInclude name).at loc))
  | repeated {chain : List Text} {st : Reading} {name path : Text} {loc : Location}
    {rest : List Piece} {evs : List Event} {e : Option Failure} (hc : lib.key path ∉ chain)
    (hs : lib.key path ∈ st.seen) (hrest : Walk chain st rest evs e) :
    Walk chain st (.inclusion name path loc :: rest) evs e
  | unreadable {chain : List Text} {st : Reading} {name path : Text} {loc : Location}
    {rest : List Piece} {reason : Text} (hnew : st.Fresh lib chain path)
    (hread : lib.read path = .error reason) :
    Walk chain st (.inclusion name path loc :: rest) [.opened path (.error reason)]
      (some (.unreadable loc path reason))
  | failing {chain : List Text} {st : Reading} {name path : Text} {loc : Location}
    {rest : List Piece} {content : Text} {inner : List Event} {f : Failure}
    (hnew : st.Fresh lib chain path) (hread : lib.read path = .ok content)
    (hin : Walk (lib.key path :: chain) (st.note lib (.opened path (.ok content)))
      (Piece.ofSource path content) inner (some f)) :
    Walk chain st (.inclusion name path loc :: rest) (.opened path (.ok content) :: inner) (some f)
  | included {chain : List Text} {st : Reading} {name path : Text} {loc : Location}
    {rest : List Piece} {content : Text} {inner evs : List Event} {e : Option Failure}
    (hnew : st.Fresh lib chain path) (hread : lib.read path = .ok content)
    (hin : Walk (lib.key path :: chain) (st.note lib (.opened path (.ok content)))
      (Piece.ofSource path content) inner none)
    (hrest : Walk chain (st.after lib (.opened path (.ok content) :: inner)) rest evs e) :
    Walk chain st (.inclusion name path loc :: rest) (.opened path (.ok content) :: (inner ++ evs)) e

end

/-! ## Reading is a walk -/

namespace Reading

section
variable {lib : Library} {visited : List Text} {file : Text} {st st' : Reading} {name : Token}

theorem openFile_failed {f : Failure} (h : openFile lib visited file st name = (.failed f, st')) :
    (∃ fault, Literal.unquote name.text = .error fault ∧
      f = (Cause.badLiteral fault).at name.loc ∧ st' = st) ∨
    ∃ target, Literal.unquote name.text = .ok target ∧
      (lib.key (Path.beside file target) ∈ visited ∧
        f = (Cause.circularInclude target).at name.loc ∧ st' = st ∨
      ∃ reason, st.Fresh lib visited (Path.beside file target) ∧
        lib.read (Path.beside file target) = .error reason ∧
        f = .unreadable name.loc (Path.beside file target) reason ∧
        st' = st.note lib (.opened (Path.beside file target) (.error reason))) := by
  unfold openFile at h
  split at h
  · rename_i fault hn
    cases h
    exact .inl ⟨fault, hn, rfl, rfl⟩
  rename_i target hn
  refine .inr ⟨target, hn, ?_⟩
  dsimp only at h
  split at h
  · rename_i hc
    cases h
    exact .inl ⟨hc, rfl, rfl⟩
  rename_i hc
  split at h
  · cases h
  rename_i hs
  split at h
  · rename_i reason hr
    cases h
    exact .inr ⟨reason, ⟨hc, hs⟩, hr, rfl, rfl⟩
  · cases h

theorem openFile_skipped (h : openFile lib visited file st name = (.skipped, st')) :
    ∃ target, Literal.unquote name.text = .ok target ∧
      lib.key (Path.beside file target) ∉ visited ∧
      lib.key (Path.beside file target) ∈ st.seen ∧ st' = st := by
  unfold openFile at h
  split at h
  · cases h
  rename_i target hn
  dsimp only at h
  split at h
  · cases h
  rename_i hc
  split at h
  · rename_i hs
    cases h
    exact ⟨target, hn, hc, hs, rfl⟩
  split at h <;> cases h

theorem openFile_fresh {path content : Text} {mem : lib.key path ∈ lib.files}
    {new : lib.key path ∉ visited}
    (h : openFile lib visited file st name = (.fresh path content mem new, st')) :
    ∃ target, Literal.unquote name.text = .ok target ∧ path = Path.beside file target ∧
      st.Fresh lib visited path ∧ lib.read path = .ok content ∧
      st' = st.note lib (.opened path (.ok content)) := by
  unfold openFile at h
  split at h
  · cases h
  rename_i target hn
  dsimp only at h
  split at h
  · cases h
  rename_i hc
  split at h
  · cases h
  rename_i hs
  split at h
  · cases h
  · rename_i content' hr
    cases h
    exact ⟨target, hn, rfl, ⟨hc, hs⟩, hr, rfl⟩

end

theorem prepend_outcome (evs evs' : List Event) (e : Option Failure) (st : Reading) :
    prepend (evs.flatMap Event.out) (Event.outcome evs' e, st)
      = (Event.outcome (evs ++ evs') e, st) := by
  cases e with
  | some f => rfl
  | none => simp [prepend, Event.outcome]

/-- **Reading the tokens of a file is a walk** over its pieces. -/
theorem exists_walk (lib : Library) (chain : List Text) (file : Text) (st : Reading)
    (tokens : List Token) : ∃ evs e, Walk lib chain st (Piece.ofTokens file tokens) evs e ∧
      splice lib chain file st tokens = (Event.outcome evs e, st.after lib evs) := by
  fun_induction splice lib chain file st tokens with
  | case1 =>
    rw [Piece.ofTokens]
    exact ⟨[], none, .done, rfl⟩
  | case2 visited file st t rest hk f he =>
    rw [Piece.ofTokens_define file hk, he]
    exact ⟨[], some f, .malformed, rfl⟩
  | case3 visited file st t rest hk m after hr ih =>
    rw [Piece.ofTokens_define file hk, hr]
    obtain ⟨evs, e, hwalk, hres⟩ := ih
    exact ⟨.definition m :: evs, e, .definition hwalk, hres⟩
  | case4 visited file st t hk hi =>
    rw [Piece.ofTokens, if_neg hk, if_pos hi]
    exact ⟨[], some _, .malformed, rfl⟩
  | case5 visited file st t hk hi name after hn =>
    rw [Piece.ofTokens, if_neg hk, if_pos hi, if_pos hn]
    exact ⟨[], some _, .malformed, rfl⟩
  | case6 visited file st t hk hi name after hn f st' ho =>
    rw [Piece.ofTokens_include file hk hi hn]
    rcases openFile_failed ho with ⟨fault, hu, rfl, rfl⟩ | ⟨target, hu, h⟩
    · rw [hu]
      exact ⟨[], some _, .malformed, rfl⟩
    rw [hu]
    rcases h with ⟨hc, rfl, rfl⟩ | ⟨reason, hnew, hr, rfl, rfl⟩
    · exact ⟨[], some _, .circular hc, rfl⟩
    · exact ⟨_, some _, .unreadable hnew hr, rfl⟩
  | case7 visited file st t hk hi name after hn st' ho ih =>
    obtain ⟨target, hu, hc, hs, rfl⟩ := openFile_skipped ho
    obtain ⟨evs, e, hwalk, hres⟩ := ih
    rw [Piece.ofTokens_include file hk hi hn, hu]
    exact ⟨evs, e, .repeated hc hs hwalk, hres⟩
  | case8 visited file st t hk hi name after hn path content mem new st' ho f he =>
    obtain ⟨target, hu, rfl, hnew, hr, rfl⟩ := openFile_fresh ho
    have hin : Piece.ofSource (Path.beside file target) content = [.malformed f] := by
      rw [Piece.ofSource, he]
    rw [Piece.ofTokens_include file hk hi hn, hu]
    exact ⟨[_], some f, .failing hnew hr (hin ▸ .malformed), rfl⟩
  | case9 visited file st t hk hi name after hn path content mem new st' ho inner hin f st'' hs ih =>
    obtain ⟨target, hu, rfl, hnew, hr, rfl⟩ := openFile_fresh ho
    obtain ⟨evs, e, hwalk, hres⟩ := ih
    obtain ⟨herr, rfl⟩ := Prod.mk.inj (hs.symm.trans hres)
    obtain rfl := Event.outcome_eq_error.1 herr.symm
    have hpieces : Piece.ofSource (Path.beside file target) content
        = Piece.ofTokens (Path.beside file target) inner := by rw [Piece.ofSource, hin]
    rw [Piece.ofTokens_include file hk hi hn, hu]
    exact ⟨_, some f, .failing hnew hr (hpieces ▸ hwalk), rfl⟩
  | case10 visited file st t hk hi name after hn path content mem new st' ho inner hin included st''
      hs ihin ih =>
    obtain ⟨target, hu, rfl, hnew, hr, rfl⟩ := openFile_fresh ho
    obtain ⟨evs, e, hwalk, hres⟩ := ihin
    obtain ⟨hok, rfl⟩ := Prod.mk.inj (hs.symm.trans hres)
    obtain ⟨rfl, rfl⟩ := Event.outcome_eq_ok.1 hok.symm
    obtain ⟨evs', e', hwalk', hres'⟩ := ih
    have hpieces : Piece.ofSource (Path.beside file target) content
        = Piece.ofTokens (Path.beside file target) inner := by rw [Piece.ofSource, hin]
    rw [Piece.ofTokens_include file hk hi hn, hu, hres', prepend_outcome]
    refine ⟨_, e', .included hnew hr (hpieces ▸ hwalk) hwalk', ?_⟩
    rw [after_cons, after_append]
    cases e' <;> rfl
  | case11 visited file st t rest hk hi hn ih =>
    obtain ⟨evs, e, hwalk, hres⟩ := ih
    have hout : st.macros.standsFor t = .ok [t] := by rw [MacroTable.standsFor, hn]
    rw [Piece.ofTokens_token file hk hi, hres]
    exact ⟨_, e, .token hout hwalk, prepend_outcome [.token t [t]] evs e _⟩
  | case12 visited file st t rest hk hi m hmac f he =>
    have hout : st.macros.standsFor t = .error f := by rw [MacroTable.standsFor, hmac, ← he]
    rw [Piece.ofTokens_token file hk hi]
    exact ⟨[], some f, .endless hout, rfl⟩
  | case13 visited file st t rest hk hi m hmac expanded he ih =>
    obtain ⟨evs, e, hwalk, hres⟩ := ih
    have hout : st.macros.standsFor t = .ok expanded := by rw [MacroTable.standsFor, hmac, ← he]
    rw [Piece.ofTokens_token file hk hi, hres]
    have hpre := prepend_outcome [.token t expanded] evs e (st.after lib evs)
    rw [List.flatMap_singleton] at hpre
    exact ⟨_, e, .token hout hwalk, hpre⟩

/-- What has been read when a source is taken up. -/
def enter (lib : Library) (st : Reading) (file : Text) : Reading :=
  { st with seen := lib.key file :: st.seen }

/-- The walk over a source. -/
def Run (lib : Library) (st : Reading) (file content : Text) : List Event → Option Failure → Prop :=
  Walk lib [lib.key file] (st.enter lib file) (Piece.ofSource file content)

/-- **Reading a source is a walk** over its pieces. -/
theorem exists_run (lib : Library) (st : Reading) (file content : Text) :
    ∃ evs e, st.Run lib file content evs e ∧
      source lib st file content = (Event.outcome evs e, (st.enter lib file).after lib evs) := by
  cases ht : Lexer.tokens file content with
  | error f =>
    simp only [Run, Piece.ofSource, source, ht]
    exact ⟨[], some f, .malformed, rfl⟩
  | ok tokens =>
    simp only [Run, Piece.ofSource, source, ht]
    exact exists_walk lib [lib.key file] file (st.enter lib file) tokens

end Reading

/-! ## The rules determine the walk -/

section
variable {lib : Library} {chain : List Text} {st : Reading} {pieces : List Piece} {evs : List Event}
  {e : Option Failure}

/-- **A walk has one course.** -/
theorem Walk.unique (h : Walk lib chain st pieces evs e) {evs' : List Event} {e' : Option Failure}
    (h' : Walk lib chain st pieces evs' e') : evs = evs' ∧ e = e' := by
  induction h generalizing evs' e' with
  | done => cases h'; exact ⟨rfl, rfl⟩
  | token hout hrest ih =>
    cases h' with
    | token hout' hrest' =>
      cases hout.symm.trans hout'
      obtain ⟨rfl, rfl⟩ := ih hrest'
      exact ⟨rfl, rfl⟩
    | endless hout' => cases hout.symm.trans hout'
  | endless hout =>
    cases h' with
    | token hout' hrest' => cases hout.symm.trans hout'
    | endless hout' =>
      cases hout.symm.trans hout'
      exact ⟨rfl, rfl⟩
  | definition hrest ih =>
    cases h' with
    | definition hrest' =>
      obtain ⟨rfl, rfl⟩ := ih hrest'
      exact ⟨rfl, rfl⟩
  | malformed => cases h'; exact ⟨rfl, rfl⟩
  | circular hc =>
    cases h' with
    | circular => exact ⟨rfl, rfl⟩
    | repeated hc' => exact absurd hc hc'
    | unreadable hnew | failing hnew | included hnew => exact absurd hc hnew.1
  | repeated hc hs hrest ih =>
    cases h' with
    | circular hc' => exact absurd hc' hc
    | repeated hc' hs' hrest' => exact ih hrest'
    | unreadable hnew | failing hnew | included hnew => exact absurd hs hnew.2
  | unreadable hnew hread =>
    cases h' with
    | circular hc' => exact absurd hc' hnew.1
    | repeated hc' hs' => exact absurd hs' hnew.2
    | unreadable hnew' hread' =>
      cases hread.symm.trans hread'
      exact ⟨rfl, rfl⟩
    | failing hnew' hread' | included hnew' hread' => cases hread.symm.trans hread'
  | failing hnew hread hin ih =>
    cases h' with
    | circular hc' => exact absurd hc' hnew.1
    | repeated hc' hs' => exact absurd hs' hnew.2
    | unreadable hnew' hread' => cases hread.symm.trans hread'
    | failing hnew' hread' hin' =>
      cases hread.symm.trans hread'
      obtain ⟨rfl, hf⟩ := ih hin'
      exact ⟨rfl, hf⟩
    | included hnew' hread' hin' =>
      cases hread.symm.trans hread'
      cases (ih hin').2
  | included hnew hread hin hrest ihin ih =>
    cases h' with
    | circular hc' => exact absurd hc' hnew.1
    | repeated hc' hs' => exact absurd hs' hnew.2
    | unreadable hnew' hread' => cases hread.symm.trans hread'
    | failing hnew' hread' hin' =>
      cases hread.symm.trans hread'
      cases (ihin hin').2
    | included hnew' hread' hin' hrest' =>
      cases hread.symm.trans hread'
      obtain ⟨rfl, -⟩ := ihin hin'
      obtain ⟨rfl, rfl⟩ := ih hrest'
      exact ⟨rfl, rfl⟩

/-- The outcome of a source is that of its run. -/
theorem Reading.source_of_run {file content : Text} (h : st.Run lib file content evs e) :
    source lib st file content = (Event.outcome evs e, (st.enter lib file).after lib evs) := by
  obtain ⟨evs', e', h', hres⟩ := exists_run lib st file content
  obtain ⟨rfl, rfl⟩ := h.unique h'
  exact hres

theorem Library.key_congr {lib' : Library} (h : lib'.cwd = lib.cwd) : lib'.key = lib.key := by
  funext path
  rw [key, key, h]

theorem Reading.note_congr {lib' : Library} (h : lib'.cwd = lib.cwd) :
    Reading.note lib' = Reading.note lib := by
  funext st ev
  cases ev <;> simp only [note, Library.key_congr h]

theorem Reading.after_congr {lib' : Library} (h : lib'.cwd = lib.cwd) :
    Reading.after lib' = Reading.after lib := by
  funext st evs
  rw [after, after, note_congr h]

/-- A walk is the same with any files that agree on those it opens. -/
theorem Walk.transfer (h : Walk lib chain st pieces evs e) {lib' : Library}
    (hcwd : lib'.cwd = lib.cwd)
    (hread : ∀ path r, Event.opened path r ∈ evs → lib'.read path = r) :
    Walk lib' chain st pieces evs e := by
  have hkey := Library.key_congr hcwd
  have hnote := Reading.note_congr hcwd
  have hafter := Reading.after_congr hcwd
  have hfresh : Reading.Fresh lib' = Reading.Fresh lib := by
    funext chain st path
    rw [Reading.Fresh, Reading.Fresh, hkey]
  induction h with
  | done => exact .done
  | token hout hrest ih => exact .token hout (ih fun path r hr => hread path r (.tail _ hr))
  | endless hout => exact .endless hout
  | definition hrest ih =>
    refine .definition ?_
    rw [hnote]
    exact ih fun path r hr => hread path r (.tail _ hr)
  | malformed => exact .malformed
  | circular hc => exact .circular (hkey ▸ hc)
  | repeated hc hs hrest ih => exact .repeated (hkey ▸ hc) (hkey ▸ hs) (ih hread)
  | unreadable hnew hr => exact .unreadable (hfresh ▸ hnew) (hread _ _ (.head _))
  | failing hnew hr hin ih =>
    refine .failing (hfresh ▸ hnew) (hread _ _ (.head _)) ?_
    rw [hkey, hnote]
    exact ih fun path r hr => hread path r (.tail _ hr)
  | included hnew hr hin hrest ihin ih =>
    refine .included (hfresh ▸ hnew) (hread _ _ (.head _)) ?_ ?_
    · rw [hkey, hnote]
      exact ihin fun path r hr => hread path r (.tail _ (List.mem_append_left _ hr))
    · rw [hafter]
      exact ih fun path r hr => hread path r (.tail _ (List.mem_append_right _ hr))

/-! ## Files are opened once -/

theorem Library.opened_append (lib : Library) (evs evs' : List Event) :
    lib.opened (evs ++ evs') = lib.opened evs ++ lib.opened evs' := by
  rw [opened, opened, opened, List.filterMap_append, List.map_append]

/-- Files opened once, and none on the chain or taken up before. -/
def OpensOnce (lib : Library) (chain : List Text) (st : Reading) (evs : List Event) : Prop :=
  (lib.opened evs).Nodup ∧ ∀ key ∈ lib.opened evs, key ∉ chain ∧ key ∉ st.seen

theorem OpensOnce.cons {path : Text} {r : Except Text Text} (hnew : st.Fresh lib chain path)
    (h : OpensOnce lib (lib.key path :: chain) (st.note lib (.opened path r)) evs) :
    OpensOnce lib chain st (.opened path r :: evs) := by
  refine ⟨List.nodup_cons.2 ⟨fun hk => (h.2 _ hk).1 (.head _), h.1⟩, fun key hk => ?_⟩
  rcases List.mem_cons.1 hk with rfl | hk
  · exact hnew
  · obtain ⟨hc, hs⟩ := h.2 key hk
    exact ⟨fun hm => hc (.tail _ hm), fun hm => hs (.tail _ hm)⟩

theorem OpensOnce.append {evs' : List Event} (h : OpensOnce lib chain st evs)
    (h' : OpensOnce lib chain (st.after lib evs) evs') : OpensOnce lib chain st (evs ++ evs') := by
  have hnew : ∀ key ∈ lib.opened evs', key ∉ lib.opened evs ∧ key ∉ st.seen := fun key hk =>
    not_or.1 fun hm => (h'.2 key hk).2 (Reading.mem_seen_after.2 hm)
  rw [OpensOnce, Library.opened_append]
  refine ⟨List.nodup_append.2 ⟨h.1, h'.1, ?_⟩, fun key hk => ?_⟩
  · rintro key hk _ hk' rfl
    exact (hnew key hk').1 hk
  · rcases List.mem_append.1 hk with hk | hk
    · exact h.2 key hk
    · exact ⟨(h'.2 key hk).1, (hnew key hk).2⟩

/-- **No file is opened twice** on a walk. -/
theorem Walk.opens_once (h : Walk lib chain st pieces evs e) : OpensOnce lib chain st evs := by
  induction h with
  | done | endless | malformed | circular => exact ⟨.nil, nofun⟩
  | token hout hrest ih => exact ih
  | definition hrest ih => exact ih
  | repeated hc hs hrest ih => exact ih
  | unreadable hnew hread => exact .cons hnew ⟨.nil, nofun⟩
  | failing hnew hread hin ih => exact .cons hnew ih
  | included hnew hread hin hrest ihin ih => exact (OpensOnce.cons hnew ihin).append ih

/-! ## Events are as they should be -/

/-- What an event says is so: the token stands for these tokens, and the file has this text. -/
def Event.Holds (lib : Library) (st : Reading) : Event → Prop
  | .token t out => st.macros.standsFor t = .ok out
  | .definition _ => True
  | .opened path r => lib.read path = r

/-- Events that hold one after the other. -/
def Faithful (lib : Library) : Reading → List Event → Prop
  | _, [] => True
  | st, ev :: evs => ev.Holds lib st ∧ Faithful lib (st.note lib ev) evs

theorem Faithful.append {evs' : List Event} (h : Faithful lib st evs)
    (h' : Faithful lib (st.after lib evs) evs') : Faithful lib st (evs ++ evs') := by
  induction evs generalizing st with
  | nil => exact h'
  | cons ev evs ih => exact ⟨h.1, ih h.2 h'⟩

theorem Faithful.at {before rest : List Event} {ev : Event}
    (h : Faithful lib st (before ++ ev :: rest)) : ev.Holds lib (st.after lib before) := by
  induction before generalizing st with
  | nil => exact h.1
  | cons ev' before ih => exact ih h.2

/-- **Every token is replaced by what it stands for after the events before it**, those of included
files among them. -/
theorem Walk.faithful (h : Walk lib chain st pieces evs e) : Faithful lib st evs := by
  induction h with
  | done | endless | malformed | circular => trivial
  | token hout hrest ih => exact ⟨hout, ih⟩
  | definition hrest ih => exact ⟨trivial, ih⟩
  | repeated hc hs hrest ih => exact ih
  | unreadable hnew hread => exact ⟨hread, trivial⟩
  | failing hnew hread hin ih => exact ⟨hread, ih⟩
  | @included chain st name path loc rest content inner evs e hnew hread hin hrest ihin ih =>
    have hfile : Faithful lib st (.opened path (.ok content) :: inner) := ⟨hread, ihin⟩
    exact hfile.append ih

/-- A file is opened with what the library has for it. -/
theorem Walk.read_eq (h : Walk lib chain st pieces evs e) {path : Text} {r : Except Text Text}
    (hm : .opened path r ∈ evs) : lib.read path = r := by
  obtain ⟨before, rest, rfl⟩ := List.append_of_mem hm
  exact h.faithful.at

/-! ## Pieces account for events and failures -/

/-- The pieces that an event brings in. -/
def Event.brings : Event → List Piece
  | .opened path (.ok content) => Piece.ofSource path content
  | _ => []

/-- The pieces of a walk: those that it starts from, and those of the files that it reads. -/
def met (pieces : List Piece) (evs : List Event) : List Piece := pieces ++ evs.flatMap Event.brings

section
variable {i j : Piece} {path content : Text} {inner : List Event}

theorem mem_met_cons : j ∈ met (i :: pieces) evs ↔ j = i ∨ j ∈ met pieces evs := List.mem_cons

theorem met_event {ev : Event} (h : ev.brings = []) : met pieces (ev :: evs) = met pieces evs := by
  rw [met, met, List.flatMap_cons, h, List.nil_append]

theorem mem_met_opened : j ∈ met pieces (.opened path (.ok content) :: evs) ↔
    j ∈ pieces ∨ j ∈ met (Piece.ofSource path content) evs := List.mem_append

theorem mem_met : j ∈ met pieces evs ↔ j ∈ pieces ∨
    ∃ path content, .opened path (.ok content) ∈ evs ∧ j ∈ Piece.ofSource path content := by
  rw [met, List.mem_append, List.mem_flatMap]
  refine or_congr_right ⟨?_, ?_⟩
  · rintro ⟨ev, hev, hj⟩
    cases ev with
    | token | definition => cases hj
    | opened path r =>
      cases r with
      | error reason => cases hj
      | ok content => exact ⟨path, content, hev, hj⟩
  · rintro ⟨path, content, hev, hj⟩
    exact ⟨_, hev, hj⟩

theorem mem_met_included :
    j ∈ met (i :: pieces) (.opened path (.ok content) :: (inner ++ evs)) ↔
      j = i ∨ j ∈ met (Piece.ofSource path content) inner ∨ j ∈ met pieces evs := by
  simp only [met, List.flatMap_cons, List.flatMap_append, List.mem_append, List.mem_cons,
    Event.brings]
  grind

end

/-- The piece that gives rise to an event. -/
def Event.From : Event → Piece → Prop
  | .token t _, .token t' => t = t'
  | .definition m, .definition m' => m = m'
  | .opened path _, .inclusion _ path' _ => path = path'
  | _, _ => False

/-- The piece where a walk fails. -/
def Failure.From (lib : Library) (f : Failure) : Piece → Prop
  | .token t => ∃ table : MacroTable, table.standsFor t = .error f
  | .definition _ => False
  | .inclusion name path loc => f = (Cause.circularInclude name).at loc ∨
      ∃ reason, lib.read path = .error reason ∧ f = .unreadable loc path reason
  | .malformed f' => f = f'

/-- Every event stems from a piece of the walk. -/
theorem Walk.event_met (h : Walk lib chain st pieces evs e) {ev : Event} (hev : ev ∈ evs) :
    ∃ i ∈ met pieces evs, ev.From i := by
  induction h with
  | done | endless | malformed | circular => cases hev
  | @token chain st t out rest evs e hout hrest ih =>
    rw [met_event rfl]
    rcases List.mem_cons.1 hev with rfl | hev
    · exact ⟨.token t, .head _, rfl⟩
    · obtain ⟨i, hi, hfrom⟩ := ih hev
      exact ⟨i, .tail _ hi, hfrom⟩
  | @definition chain st m rest evs e hrest ih =>
    rw [met_event rfl]
    rcases List.mem_cons.1 hev with rfl | hev
    · exact ⟨.definition m, .head _, rfl⟩
    · obtain ⟨i, hi, hfrom⟩ := ih hev
      exact ⟨i, .tail _ hi, hfrom⟩
  | repeated hc hs hrest ih =>
    obtain ⟨i, hi, hfrom⟩ := ih hev
    exact ⟨i, .tail _ hi, hfrom⟩
  | @unreadable chain st name path loc rest reason hnew hread =>
    obtain rfl := List.mem_singleton.1 hev
    exact ⟨.inclusion name path loc, .head _, rfl⟩
  | @failing chain st name path loc rest content inner f hnew hread hin ih =>
    rcases List.mem_cons.1 hev with rfl | hev
    · exact ⟨.inclusion name path loc, .head _, rfl⟩
    · obtain ⟨i, hi, hfrom⟩ := ih hev
      exact ⟨i, mem_met_opened.2 (.inr hi), hfrom⟩
  | @included chain st name path loc rest content inner evs e hnew hread hin hrest ihin ih =>
    rcases List.mem_cons.1 hev with rfl | hev
    · exact ⟨.inclusion name path loc, .head _, rfl⟩
    rcases List.mem_append.1 hev with hev | hev
    · obtain ⟨i, hi, hfrom⟩ := ihin hev
      exact ⟨i, mem_met_included.2 (.inr (.inl hi)), hfrom⟩
    · obtain ⟨i, hi, hfrom⟩ := ih hev
      exact ⟨i, mem_met_included.2 (.inr (.inr hi)), hfrom⟩

/-- Every token that is replaced is a piece of the walk. -/
theorem Walk.token_met (h : Walk lib chain st pieces evs e) {t : Token} {out : List Token}
    (hev : .token t out ∈ evs) : .token t ∈ met pieces evs := by
  obtain ⟨i, hi, hfrom⟩ := h.event_met hev
  cases i with
  | token t' => exact (show t = t' from hfrom) ▸ hi
  | definition | inclusion | malformed => exact hfrom.elim

theorem Walk.definition_met (h : Walk lib chain st pieces evs e) {m : MacroDef}
    (hev : .definition m ∈ evs) : .definition m ∈ met pieces evs := by
  obtain ⟨i, hi, hfrom⟩ := h.event_met hev
  cases i with
  | definition m' => exact (show m = m' from hfrom) ▸ hi
  | token | inclusion | malformed => exact hfrom.elim

/-- The macros after a walk are those before it and those that it meets. -/
theorem Walk.mem_macros (h : Walk lib chain st pieces evs e) {before : List Event}
    (hb : before ⊆ evs) {m : MacroDef} (hm : m ∈ (st.after lib before).macros) :
    m ∈ st.macros ∨ .definition m ∈ met pieces evs :=
  (Reading.mem_macros_after hm).imp_right fun hev => h.definition_met (hb hev)

/-- **What a walk leaves**: tokens of its files, and tokens of macro bodies in the place of such
tokens. -/
theorem Walk.mem_out (h : Walk lib chain st pieces evs e) {t : Token}
    (ht : t ∈ evs.flatMap Event.out) : .token t ∈ met pieces evs ∨
      ∃ m site b, (m ∈ st.macros ∨ .definition m ∈ met pieces evs) ∧
        .token site ∈ met pieces evs ∧ b ∈ m.body ∧ t = { b with loc := site.loc } := by
  obtain ⟨ev, hev, hout⟩ := List.mem_flatMap.1 ht
  cases ev with
  | definition | opened => cases hout
  | token site out =>
    have hsite := h.token_met hev
    obtain ⟨before, rest, rfl⟩ := List.append_of_mem hev
    have hstands : (st.after lib before).macros.standsFor site = .ok out := h.faithful.at
    rcases MacroTable.mem_of_standsFor hstands hout with rfl | ⟨m, hm, b, hb, hob⟩
    · exact .inl hsite
    · exact .inr ⟨m, site, b, h.mem_macros (List.subset_append_left _ _) hm, hsite, hb, hob⟩

/-- A failure stems from a piece of the walk. -/
theorem Walk.failure_met {f : Failure} (h : Walk lib chain st pieces evs (some f)) :
    ∃ i ∈ met pieces evs, f.From lib i := by
  generalize he : some f = e at h
  induction h with
  | done => cases he
  | token hout hrest ih | definition hrest ih =>
    obtain ⟨i, hi, hfrom⟩ := ih he
    rw [met_event rfl]
    exact ⟨i, .tail _ hi, hfrom⟩
  | @endless chain st t rest f' hout =>
    cases he
    exact ⟨.token t, .head _, st.macros, hout⟩
  | @malformed chain st f' rest =>
    cases he
    exact ⟨.malformed f, .head _, rfl⟩
  | @circular chain st name path loc rest hc =>
    cases he
    exact ⟨.inclusion name path loc, .head _, .inl rfl⟩
  | repeated hc hs hrest ih =>
    obtain ⟨i, hi, hfrom⟩ := ih he
    exact ⟨i, .tail _ hi, hfrom⟩
  | @unreadable chain st name path loc rest reason hnew hread =>
    cases he
    exact ⟨.inclusion name path loc, .head _, .inr ⟨reason, hread, rfl⟩⟩
  | failing hnew hread hin ih =>
    obtain ⟨i, hi, hfrom⟩ := ih he
    exact ⟨i, mem_met_opened.2 (.inr hi), hfrom⟩
  | included hnew hread hin hrest ihin ih =>
    obtain ⟨i, hi, hfrom⟩ := ih he
    exact ⟨i, mem_met_included.2 (.inr (.inr hi)), hfrom⟩

end

/-! ## The files of a run -/

namespace Reading

/-- The files of a run: the source, and those that are read on the way. -/
def filesOf (file content : Text) (evs : List Event) : List (Text × Text) :=
  (file, content) :: evs.filterMap Event.file?

section
variable {file content : Text} {evs : List Event}

theorem mem_filesOf {path text : Text} : (path, text) ∈ filesOf file content evs ↔
    (path = file ∧ text = content) ∨ .opened path (.ok text) ∈ evs := by
  rw [filesOf, List.mem_cons, List.mem_filterMap, Prod.mk.injEq]
  refine or_congr_right ⟨?_, fun h => ⟨_, h, rfl⟩⟩
  rintro ⟨ev, hev, hfile⟩
  cases ev with
  | token | definition => cases hfile
  | opened p r =>
    cases r with
    | error reason => cases hfile
    | ok c =>
      cases hfile
      exact hev

/-- The pieces of a run are those of its files. -/
theorem mem_met_ofSource {i : Piece} : i ∈ met (Piece.ofSource file content) evs ↔
    ∃ path text, (path, text) ∈ filesOf file content evs ∧ i ∈ Piece.ofSource path text := by
  rw [mem_met]
  refine ⟨?_, ?_⟩
  · rintro (hi | ⟨path, text, hm, hi⟩)
    · exact ⟨file, content, .head _, hi⟩
    · exact ⟨path, text, mem_filesOf.2 (.inr hm), hi⟩
  · rintro ⟨path, text, hm, hi⟩
    rcases mem_filesOf.1 hm with ⟨rfl, rfl⟩ | hm
    · exact .inl hi
    · exact .inr ⟨path, text, hm, hi⟩

end

end Reading

end StackLang
