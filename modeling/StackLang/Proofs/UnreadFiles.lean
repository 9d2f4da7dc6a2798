import Mathlib.Data.List.Basic
import StackLang.Proofs.Directives
import StackLang.Proofs.IncludeOnce

/-!
# Files that could not be read

A file is noted as taken up before it is read, and the note stays when the reading fails. So what counts
as taken up, over any number of sources, are the sources, the included files that were read, and the
included files that could not be read. Sources that come later pass over the last as over the others.

- `Walk.unreadable_of_opened`, `Run.unreadable_iff`: a walk ends where a file cannot be read.
- `TakenUp`: why a file counts as taken up. `mem_seen_session`: there is no other reason.
- `source_passes_over`: what is taken up is not asked for again, whatever it holds.
- `unread_files_stay_taken_up`: a file that could not be read is passed over from then on.
-/

set_option autoImplicit false

namespace StackLang

/-! ## Failed readings -/

/-- A failure to read a file. -/
def Failure.isUnreadable : Failure → Bool
  | .unreadable _ _ _ => true
  | .error _ | .inconsistent _ _ | .outOfTable => false

section
variable {lib : Library} {chain : List Text} {st : Reading} {pieces : List Piece} {evs : List Event}
  {e : Option Failure}

/-- **A file that cannot be read ends the walk.** -/
theorem Walk.unreadable_of_opened (h : Walk lib chain st pieces evs e) {path reason : Text}
    (hm : .opened path (.error reason) ∈ evs) : ∃ loc, e = some (.unreadable loc path reason) := by
  induction h with
  | done | endless | malformed | circular => cases hm
  | token hout hrest ih | definition hrest ih =>
    rcases List.mem_cons.1 hm with hm | hm
    · cases hm
    · exact ih hm
  | repeated hc hs hrest ih => exact ih hm
  | @unreadable chain st name path' loc rest reason' hnew hread =>
    cases List.mem_singleton.1 hm
    exact ⟨loc, rfl⟩
  | failing hnew hread hin ih =>
    rcases List.mem_cons.1 hm with hm | hm
    · cases hm
    · exact ih hm
  | included hnew hread hin hrest ihin ih =>
    rcases List.mem_cons.1 hm with hm | hm
    · cases hm
    rcases List.mem_append.1 hm with hm | hm
    · obtain ⟨loc, he⟩ := ihin hm
      cases he
    · exact ih hm

/-- Where a file is refused, this is not for want of another. -/
theorem Piece.not_unreadable {file content : Text} {f : Failure}
    (h : .malformed f ∈ Piece.ofSource file content) : f.isUnreadable = false := by
  rcases Piece.of_mem_ofSource h with ⟨tokens, -, hin⟩ | ⟨f', hf', hf⟩
  · obtain ⟨c, t, -, rfl, -⟩ := hin
    rfl
  · cases hf
    obtain ⟨_, _, -, c, rfl, -⟩ := (Lexer.ends_tokens file content).of_error hf'
    rfl

/-- A walk that fails to read a file has opened it. -/
theorem Walk.opened_of_unreadable {loc : Location} {path reason : Text}
    (h : Walk lib chain st pieces evs (some (.unreadable loc path reason)))
    (hp : ∀ f, .malformed f ∈ pieces → f.isUnreadable = false) :
    .opened path (.error reason) ∈ evs := by
  generalize he : some (Failure.unreadable loc path reason) = e at h
  induction h with
  | done => cases he
  | token hout hrest ih | definition hrest ih =>
    exact .tail _ (ih (fun f hf => hp f (.tail _ hf)) he)
  | endless hout =>
    cases he
    obtain ⟨name, hf⟩ := MacroTable.error_of_standsFor hout
    cases hf
  | malformed =>
    cases he
    cases hp _ (.head _)
  | circular => cases he
  | repeated hc hs hrest ih => exact ih (fun f hf => hp f (.tail _ hf)) he
  | unreadable hnew hread =>
    cases he
    exact .head _
  | failing hnew hread hin ih => exact .tail _ (ih (fun f => Piece.not_unreadable) he)
  | included hnew hread hin hrest ihin ih =>
    exact .tail _ (List.mem_append_right _ (ih (fun f hf => hp f (.tail _ hf)) he))

end

namespace Reading

section
variable {lib : Library} {st : Reading} {file content : Text} {evs : List Event}
  {e : Option Failure} {loc : Location} {path reason : Text}

/-- **A source fails for want of a file exactly when it opens one that cannot be read.** -/
theorem Run.unreadable_iff (h : Run lib st file content evs e) :
    (∃ loc, (source lib st file content).1 = .error (.unreadable loc path reason)) ↔
      .opened path (.error reason) ∈ evs := by
  rw [source_of_run h]
  constructor
  · rintro ⟨loc, hres⟩
    obtain rfl := Event.outcome_eq_error.1 hres
    exact Walk.opened_of_unreadable h fun f => Piece.not_unreadable
  · intro hm
    obtain ⟨loc, rfl⟩ := Walk.unreadable_of_opened h hm
    exact ⟨loc, rfl⟩

/-- What is taken up after a source: what was before, the source, and the files that it opens. -/
theorem mem_seen_source (h : Run lib st file content evs e) {key : Text} :
    key ∈ (source lib st file content).2.seen ↔
      key ∈ st.seen ∨ lib.key file = key ∨ key ∈ lib.opened evs := by
  rw [source_of_run h, mem_seen_after, enter, List.mem_cons]
  grind

theorem exists_of_mem_opened {key : Text} (h : key ∈ lib.opened evs) :
    ∃ path r, .opened path r ∈ evs ∧ lib.key path = key := by
  obtain ⟨path, hp, rfl⟩ := List.mem_map.1 h
  obtain ⟨ev, hev, hpath⟩ := List.mem_filterMap.1 hp
  cases ev with
  | token | definition => cases hpath
  | opened path' r =>
    obtain rfl := Option.some.inj hpath
    exact ⟨path', r, hev, rfl⟩

end

/-! ## What counts as taken up -/

theorem session_snoc (calls : List Call) (c : Call) :
    session (calls ++ [c]) = (source c.lib (session calls) c.file c.content).2 := by
  rw [session, List.foldl_append]
  rfl

/-- What is taken up stays so. -/
theorem mem_seen_session_append {calls : List Call} {key : Text} (h : key ∈ (session calls).seen)
    (more : List Call) : key ∈ (session (calls ++ more)).seen := by
  induction more generalizing calls with
  | nil => rwa [List.append_nil]
  | cons c more ih =>
    obtain ⟨evs, e, hrun, -⟩ := exists_run c.lib (session calls) c.file c.content
    rw [List.append_cons]
    apply ih
    rw [session_snoc, mem_seen_source hrun]
    exact .inl h

/-- Why a file counts as taken up after some sources. -/
inductive TakenUp (calls : List Call) (key : Text) : Prop
  /-- It was one of the sources. -/
  | given {before after : List Call} {c : Call} (hcalls : calls = before ++ c :: after)
    (hkey : c.lib.key c.file = key)
  /-- It was included, and its text was read. -/
  | read {before after : List Call} {c : Call} {evs : List Event} {e : Option Failure}
    {path text : Text} (hcalls : calls = before ++ c :: after)
    (hrun : Run c.lib (session before) c.file c.content evs e)
    (hopened : .opened path (.ok text) ∈ evs) (hkey : c.lib.key path = key)
  /-- It was included and could not be read, for which a source failed. -/
  | unread {before after : List Call} {c : Call} {loc : Location} {path reason : Text}
    (hcalls : calls = before ++ c :: after)
    (hfailed : (source c.lib (session before) c.file c.content).1
      = .error (.unreadable loc path reason))
    (hkey : c.lib.key path = key)

theorem TakenUp.append {calls : List Call} {key : Text} (h : TakenUp calls key)
    (more : List Call) : TakenUp (calls ++ more) key := by
  have hlonger : ∀ {before after : List Call} {c : Call}, calls = before ++ c :: after →
      calls ++ more = before ++ c :: (after ++ more) := by
    rintro before after c rfl
    rw [List.append_assoc, List.cons_append]
  cases h with
  | given hcalls hkey => exact .given (hlonger hcalls) hkey
  | read hcalls hrun hopened hkey => exact .read (hlonger hcalls) hrun hopened hkey
  | unread hcalls hfailed hkey => exact .unread (hlonger hcalls) hfailed hkey

/-- What one source takes up is taken up after it. -/
theorem mem_seen_of_call {calls before after : List Call} {c : Call} {evs : List Event}
    {e : Option Failure} (hcalls : calls = before ++ c :: after)
    (hrun : Run c.lib (session before) c.file c.content evs e) {key : Text}
    (h : c.lib.key c.file = key ∨ key ∈ c.lib.opened evs) : key ∈ (session calls).seen := by
  rw [hcalls, List.append_cons]
  apply mem_seen_session_append
  rw [session_snoc, mem_seen_source hrun]
  exact .inr h

/-- **What counts as taken up**: sources, included files that were read, and included files that could
not be read. -/
theorem mem_seen_session {calls : List Call} {key : Text} :
    key ∈ (session calls).seen ↔ TakenUp calls key := by
  constructor
  · intro h
    induction calls using List.reverseRecOn with
    | nil => cases h
    | append_singleton calls c ih =>
      obtain ⟨evs, e, hrun, -⟩ := exists_run c.lib (session calls) c.file c.content
      rw [session_snoc, mem_seen_source hrun] at h
      rcases h with h | h | h
      · exact (ih h).append [c]
      · exact .given rfl h
      · obtain ⟨path, r, hopened, hkey⟩ := exists_of_mem_opened h
        cases r with
        | ok text => exact .read rfl hrun hopened hkey
        | error reason =>
          obtain ⟨loc, hfailed⟩ := hrun.unreadable_iff.2 hopened
          exact .unread rfl hfailed hkey
  · intro h
    cases h with
    | @given before after c hcalls hkey =>
      obtain ⟨evs, e, hrun, -⟩ := exists_run c.lib (session before) c.file c.content
      exact mem_seen_of_call hcalls hrun (.inl hkey)
    | read hcalls hrun hopened hkey =>
      exact mem_seen_of_call hcalls hrun (.inr (hkey ▸ mem_opened hopened))
    | @unread before after c loc path reason hcalls hfailed hkey =>
      obtain ⟨evs, e, hrun, -⟩ := exists_run c.lib (session before) c.file c.content
      have hopened := hrun.unreadable_iff.1 ⟨loc, hfailed⟩
      exact mem_seen_of_call hcalls hrun (.inr (hkey ▸ mem_opened hopened))

/-! ## Files that are passed over -/

/-- **A file that is taken up is not asked for again.** No source fails for want of it, and what it
holds makes no difference. -/
theorem source_passes_over {st : Reading} {key : Text} (hk : key ∈ st.seen) (lib : Library)
    (file content : Text) :
    (∀ loc path reason, lib.key path = key →
      (source lib st file content).1 ≠ .error (.unreadable loc path reason)) ∧
    ∀ lib' : Library, lib'.cwd = lib.cwd →
      (∀ path, lib.key path ≠ key → lib'.read path = lib.read path) →
      source lib' st file content = source lib st file content := by
  obtain ⟨evs, e, hrun, -⟩ := exists_run lib st file content
  have hother : ∀ path r, .opened path r ∈ evs → lib.key path ≠ key := by
    rintro path r hopened rfl
    exact (hrun.opens_once.2 _ (mem_opened hopened)).2 (.tail _ hk)
  refine ⟨fun loc path reason hkey hfailed => ?_, fun lib' hcwd hread => ?_⟩
  · exact hother path _ (hrun.unreadable_iff.1 ⟨loc, hfailed⟩) hkey
  · refine source_congr hrun hcwd fun path r hopened => ?_
    rw [hread path (hother path r hopened)]
    exact hrun.read_eq hopened

/-- **Files that could not be read stay taken up.** After any sources, what counts as taken up are the
sources, the included files that were read, and those that could not be read, for which a source
failed. When a source fails for want of a file, the file is one that was not taken up before. From then
on it is, and sources that come later, the same one among them, pass over it: none of them fails for
want of it, and each has the outcome that it has with any other text in its place. -/
theorem unread_files_stay_taken_up (calls : List Call) :
    (∀ key, key ∈ (session calls).seen ↔ TakenUp calls key) ∧
    ∀ (c : Call) (loc : Location) (path reason : Text),
      (source c.lib (session calls) c.file c.content).1 = .error (.unreadable loc path reason) →
      c.lib.read path = .error reason ∧ c.lib.key path ∉ (session calls).seen ∧
      ∀ (later : List Call) (next : Call),
        c.lib.key path ∈ (session (calls ++ c :: later)).seen ∧
        (∀ loc' path' reason', next.lib.key path' = c.lib.key path →
          (source next.lib (session (calls ++ c :: later)) next.file next.content).1
            ≠ .error (.unreadable loc' path' reason')) ∧
        ∀ lib' : Library, lib'.cwd = next.lib.cwd →
          (∀ p, next.lib.key p ≠ c.lib.key path → lib'.read p = next.lib.read p) →
          source lib' (session (calls ++ c :: later)) next.file next.content
            = source next.lib (session (calls ++ c :: later)) next.file next.content := by
  refine ⟨fun key => mem_seen_session, fun c loc path reason hfailed => ?_⟩
  obtain ⟨evs, e, hrun, -⟩ := exists_run c.lib (session calls) c.file c.content
  have hopened := hrun.unreadable_iff.1 ⟨loc, hfailed⟩
  refine ⟨hrun.read_eq hopened, fun hs => ?_, fun later next => ?_⟩
  · exact (hrun.opens_once.2 _ (mem_opened hopened)).2 (.tail _ hs)
  · have hseen : c.lib.key path ∈ (session (calls ++ c :: later)).seen :=
      mem_seen_session.2 (.unread rfl hfailed rfl)
    exact ⟨hseen, source_passes_over hseen next.lib next.file next.content⟩

/-- A source that includes a file which is not there. -/
def wanting : Call := ⟨.ofList "/" [], "a", "include \"x\" 1"⟩

theorem pieces_wanting : Piece.ofSource "a" "include \"x\" 1" =
    [.inclusion "x" (Path.beside "a" "x") ⟨"a", 1, 9⟩, .token ⟨.integer, "1", ⟨"a", 1, 13⟩⟩] := by
  have hl : Lexer.tokens "a" "include \"x\" 1" = .ok [⟨.keyword, "INCLUDE", ⟨"a", 1, 1⟩⟩,
      ⟨.string, "\"x\"", ⟨"a", 1, 9⟩⟩, ⟨.integer, "1", ⟨"a", 1, 13⟩⟩] := by decide +kernel
  have hname : Literal.unquote "\"x\"" = .ok "x" := by decide +kernel
  simp +decide [Piece.ofSource, hl, Piece.ofTokens, hname]

theorem run_wanting : Run wanting.lib {} wanting.file wanting.content
    [.opened "x" (.error "file does not exist")]
    (some (.unreadable ⟨"a", 1, 9⟩ "x" "file does not exist")) := by
  rw [Run, wanting, pieces_wanting]
  exact .unreadable ⟨by decide, by decide⟩ rfl

theorem session_wanting : session [wanting] = { seen := ["/x", "/a"] } := by
  rw [session, List.foldl_cons, List.foldl_nil, source_of_run run_wanting]
  rfl

/-- The source is read again. -/
theorem run_wanting_again : Run wanting.lib (session [wanting]) wanting.file wanting.content
    [.token ⟨.integer, "1", ⟨"a", 1, 13⟩⟩ [⟨.integer, "1", ⟨"a", 1, 13⟩⟩]] none := by
  rw [Run, session_wanting, wanting, pieces_wanting]
  exact .repeated (by decide) (by decide) (.token rfl .done)

theorem unread_files_stay_taken_up_wanting :
    (source wanting.lib (session []) wanting.file wanting.content).1
      = .error (.unreadable ⟨"a", 1, 9⟩ "x" "file does not exist") ∧
    wanting.lib.key "x" ∉ (session []).seen ∧ wanting.lib.key "x" ∈ (session [wanting]).seen ∧
    (source (.ofList "/" [("x", "2")]) (session [wanting]) wanting.file wanting.content).1
      = .ok [⟨.integer, "1", ⟨"a", 1, 13⟩⟩] := by
  have hfailed : (source wanting.lib (session []) wanting.file wanting.content).1
      = .error (.unreadable ⟨"a", 1, 9⟩ "x" "file does not exist") :=
    congrArg Prod.fst (source_of_run run_wanting)
  obtain ⟨-, hnew, hlater⟩ := (unread_files_stay_taken_up []).2 wanting _ _ _ hfailed
  obtain ⟨hseen, -, hsame⟩ := hlater [] wanting
  have hother : ∀ p, wanting.lib.key p ≠ wanting.lib.key "x" →
      (Library.ofList "/" [("x", "2")]).read p = wanting.lib.read p := by
    intro p hp
    have hne : (p == ("x" : Text)) = false := beq_false_of_ne fun h => hp (h ▸ rfl)
    simp [Library.ofList, wanting, List.lookup_cons, hne]
  have hagain := hsame (.ofList "/" [("x", "2")]) rfl hother
  rw [List.nil_append] at hagain
  refine ⟨hfailed, hnew, hseen, ?_⟩
  rw [hagain, source_of_run run_wanting_again]
  rfl

/-- A source that fails for want of a file is accepted when it is read once more, though the file is
still not there: it is among the files that are taken up, and was neither a source nor read. -/
theorem wanting_file_passed_over :
    (source wanting.lib {} wanting.file wanting.content).1
      = .error (.unreadable ⟨"a", 1, 9⟩ "x" "file does not exist") ∧
    (source wanting.lib (session [wanting]) wanting.file wanting.content).1
      = .ok [⟨.integer, "1", ⟨"a", 1, 13⟩⟩] ∧
    wanting.lib.key "x" ∈ (session [wanting]).seen ∧
    wanting.lib.key "x" ≠ wanting.lib.key wanting.file ∧
    ∀ evs e, Run wanting.lib {} wanting.file wanting.content evs e →
      ∀ path text, .opened path (.ok text) ∉ evs := by
  refine ⟨congrArg Prod.fst (source_of_run run_wanting),
    congrArg Prod.fst (source_of_run run_wanting_again), ?_, by decide, fun evs e hrun path text => ?_⟩
  · rw [session_wanting]
    decide
  · obtain ⟨rfl, -⟩ := run_wanting.unique hrun
    simp

end Reading

end StackLang
