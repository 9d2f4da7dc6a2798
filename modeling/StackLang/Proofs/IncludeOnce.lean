import StackLang.Proofs.Scanning
import StackLang.Proofs.Splicing

/-!
# Every file is included once

Over a whole source: each file that inclusions lead to is opened once, and when no failure ends the
reading, each of its tokens is taken once, under the name of its own file.

- `Walk.included_met`, `Walk.opened_of_included`: the files that are opened are those that can be
  reached by inclusions.
- `Walk.sitesIn_eq`: the tokens of each file are taken once, in order.
- `Reading.source_includes_once`: the course of a source.
-/

set_option autoImplicit false

namespace StackLang

/-! ## Names of files -/

/-- The tokens of a file carry its name. -/
theorem Piece.file_of_token_mem {file content : Text} {t : Token}
    (h : .token t ∈ Piece.ofSource file content) : t.loc.file = file := by
  obtain ⟨tokens, ht, hin⟩ := Piece.of_token_mem h
  obtain ⟨before, rest, -, -, hloc⟩ := (Lexer.ends_tokens file content).of_ok ht t hin.1
  rw [hloc]
  rfl

/-- What a token stands for is at its place. -/
theorem MacroTable.loc_of_standsFor {table : MacroTable} {t : Token} {out : List Token}
    (h : table.standsFor t = .ok out) : ∀ o ∈ out, o.loc = t.loc := by
  intro o ho
  rcases MacroTable.mem_of_standsFor h ho with rfl | ⟨m, hm, b, hb, rfl⟩
  · rfl
  · rfl

/-! ## Files that can be reached -/

section
variable {lib : Library} {chain : List Text} {st : Reading} {pieces : List Piece} {evs : List Event}
  {e : Option Failure}

/-- When a walk does not fail, every file that is included has been taken up, and none is on the
chain. -/
theorem Walk.included_met (h : Walk lib chain st pieces evs none) {name path : Text}
    {loc : Location} (hi : .inclusion name path loc ∈ met pieces evs) :
    lib.key path ∉ chain ∧ lib.key path ∈ (st.after lib evs).seen := by
  generalize he : none = e at h
  induction h with
  | endless | malformed | circular | unreadable | failing => cases he
  | done => cases hi
  | token hout hrest ih | definition hrest ih =>
    rw [met_event rfl] at hi
    rcases mem_met_cons.1 hi with hi | hi
    · cases hi
    · exact ih hi he
  | repeated hc hs hrest ih =>
    rcases mem_met_cons.1 hi with hi | hi
    · cases hi
      exact ⟨hc, Reading.mem_seen_after.2 (.inr hs)⟩
    · exact ih hi he
  | @included chain st name' path' loc' rest content inner evs e hnew hread hin hrest ihin ih =>
    have hseen : ∀ key, key ∈ (st.after lib (.opened path' (.ok content) :: inner)).seen →
        key ∈ (st.after lib (.opened path' (.ok content) :: (inner ++ evs))).seen := by
      intro key hk
      rw [← List.cons_append, Reading.after_append]
      exact Reading.mem_seen_after.2 (.inr hk)
    rcases mem_met_included.1 hi with hi | hi | hi
    · cases hi
      exact ⟨hnew.1, hseen _ (Reading.mem_seen_after.2 (.inl (.head _)))⟩
    · obtain ⟨hc, hs⟩ := ihin hi rfl
      exact ⟨fun hm => hc (.tail _ hm), hseen _ hs⟩
    · obtain ⟨hc, hs⟩ := ih hi he
      rw [← List.cons_append, Reading.after_append]
      exact ⟨hc, hs⟩

/-- A set of files that inclusions do not leave holds every file that is opened. -/
theorem Walk.opened_of_included {P : Text → Prop} (h : Walk lib chain st pieces evs e)
    (hpieces : ∀ name path loc, .inclusion name path loc ∈ pieces → P (lib.key path))
    (hfiles : ∀ path content, .opened path (.ok content) ∈ evs → P (lib.key path) →
      ∀ name path' loc, .inclusion name path' loc ∈ Piece.ofSource path content →
        P (lib.key path')) : ∀ key ∈ lib.opened evs, P key := by
  induction h with
  | done | endless | malformed | circular => exact nofun
  | token hout hrest ih | definition hrest ih =>
    exact ih (fun name path loc hi => hpieces name path loc (.tail _ hi))
      fun path content hm => hfiles path content (.tail _ hm)
  | repeated hc hs hrest ih =>
    exact ih (fun name path loc hi => hpieces name path loc (.tail _ hi)) hfiles
  | unreadable hnew hread =>
    intro key hk
    obtain rfl := List.mem_singleton.1 hk
    exact hpieces _ _ _ (.head _)
  | failing hnew hread hin ih =>
    have hpath := hpieces _ _ _ (.head _)
    refine List.forall_mem_cons.2 ⟨hpath, ?_⟩
    exact ih (hfiles _ _ (.head _) hpath) fun path content hm => hfiles path content (.tail _ hm)
  | included hnew hread hin hrest ihin ih =>
    have hpath := hpieces _ _ _ (.head _)
    refine List.forall_mem_cons.2 ⟨hpath, ?_⟩
    rw [← Library.opened, Library.opened_append]
    refine List.forall_mem_append.2 ⟨?_, ?_⟩
    · exact ihin (hfiles _ _ (.head _) hpath) fun path content hm =>
        hfiles path content (.tail _ (List.mem_append_left _ hm))
    · exact ih (fun name path loc hi => hpieces name path loc (.tail _ hi)) fun path content hm =>
        hfiles path content (.tail _ (List.mem_append_right _ hm))

/-- When a walk does not fail, every file that it opens can be read. -/
theorem Walk.read_of_opened (h : Walk lib chain st pieces evs none) {path : Text}
    {r : Except Text Text} (hm : .opened path r ∈ evs) : ∃ content, r = .ok content := by
  generalize he : none = e at h
  induction h with
  | endless | malformed | circular | unreadable | failing => cases he
  | done => cases hm
  | token hout hrest ih | definition hrest ih =>
    rcases List.mem_cons.1 hm with hm | hm
    · cases hm
    · exact ih hm he
  | repeated hc hs hrest ih => exact ih hm he
  | @included chain st name path' loc rest content inner evs e hnew hread hin hrest ihin ih =>
    rcases List.mem_cons.1 hm with hm | hm
    · cases hm
      exact ⟨content, rfl⟩
    rcases List.mem_append.1 hm with hm | hm
    · exact ihin hm rfl
    · exact ih hm he

/-! ## Tokens of each file -/

/-- The tokens under the name of a file that are replaced on a walk. -/
def sitesIn (path : Text) (evs : List Event) : List Token :=
  (evs.filterMap Event.site?).filter (·.loc.file = path)

theorem sitesIn_append (path : Text) (evs evs' : List Event) :
    sitesIn path (evs ++ evs') = sitesIn path evs ++ sitesIn path evs' := by
  rw [sitesIn, sitesIn, sitesIn, List.filterMap_append, List.filter_append]

theorem mem_opened {path : Text} {r : Except Text Text} (h : .opened path r ∈ evs) :
    lib.key path ∈ lib.opened evs :=
  List.mem_map_of_mem (List.mem_filterMap.2 ⟨_, h, rfl⟩)

/-- Tokens are taken from the file of the walk and from files that it opens. -/
theorem Walk.sitesIn_eq_nil (h : Walk lib chain st pieces evs e) {file path : Text}
    (hfile : ∀ t, .token t ∈ pieces → t.loc.file = file) (hne : path ≠ file)
    (hp : lib.key path ∉ lib.opened evs) : sitesIn path evs = [] := by
  refine List.filter_eq_nil_iff.2 fun t ht hloc => ?_
  have hloc : t.loc.file = path := of_decide_eq_true hloc
  obtain ⟨ev, hev, hsite⟩ := List.mem_filterMap.1 ht
  cases ev with
  | definition | opened => cases hsite
  | token t' out =>
    obtain rfl := Option.some.inj hsite
    rcases mem_met.1 (h.token_met hev) with hi | ⟨p, content, hp', hi⟩
    · exact hne (hloc.symm.trans (hfile t' hi))
    · obtain rfl := hloc.symm.trans (Piece.file_of_token_mem hi)
      exact hp (mem_opened hp')

/-- **The tokens of each file are taken once, in order**, when no failure ends the walk. -/
theorem Walk.sitesIn_eq (h : Walk lib chain st pieces evs none) {file : Text}
    (hfile : ∀ t, .token t ∈ pieces → t.loc.file = file) (hc : lib.key file ∈ chain) :
    sitesIn file evs = pieces.filterMap Piece.token? ∧
    ∀ path content, .opened path (.ok content) ∈ evs →
      sitesIn path evs = (Piece.ofSource path content).filterMap Piece.token? := by
  generalize he : none = e at h
  induction h generalizing file with
  | endless | malformed | circular | unreadable | failing => cases he
  | done => exact ⟨rfl, nofun⟩
  | @token chain st t out rest evs e hout hrest ih =>
    obtain ⟨hown, hothers⟩ := ih (fun t ht => hfile t (.tail _ ht)) hc he
    have ht : t.loc.file = file := hfile t (.head _)
    refine ⟨?_, fun path content hm => ?_⟩
    · show List.filter _ (t :: evs.filterMap Event.site?) = t :: rest.filterMap Piece.token?
      rw [List.filter_cons_of_pos (by simpa using ht), ← hown]
      rfl
    · have hm : .opened path (.ok content) ∈ evs := by simpa using hm
      have hne : ¬t.loc.file = path := by
        rintro rfl
        exact (hrest.opens_once.2 _ (mem_opened hm)).1 (ht ▸ hc)
      rw [← hothers path content hm]
      exact List.filter_cons_of_neg (by simpa using hne)
  | definition hrest ih =>
    obtain ⟨hown, hothers⟩ := ih (fun t ht => hfile t (.tail _ ht)) hc he
    exact ⟨hown, fun path content hm => hothers path content (by simpa using hm)⟩
  | repeated hc' hs hrest ih => exact ih (fun t ht => hfile t (.tail _ ht)) hc he
  | @included chain st name path loc rest content inner evs e hnew hread hin hrest ihin ih =>
    have hpath : ∀ t, .token t ∈ Piece.ofSource path content → t.loc.file = path :=
      fun t => Piece.file_of_token_mem
    have hrests : ∀ t, .token t ∈ rest → t.loc.file = file := fun t ht => hfile t (.tail _ ht)
    obtain ⟨hown, hothers⟩ := ih hrests hc he
    obtain ⟨hownIn, hothersIn⟩ := ihin hpath (.head _) rfl
    have houter : ∀ q, lib.key q ∉ chain → q ≠ file := by
      rintro q hq rfl
      exact hq hc
    -- What is opened later is neither the file nor one that was opened in it.
    have hlater : ∀ key ∈ lib.opened evs, key ≠ lib.key path ∧ key ∉ lib.opened inner := by
      intro key hk
      have hs := (hrest.opens_once.2 key hk).2
      rw [Reading.after_cons, Reading.mem_seen_after, not_or] at hs
      exact ⟨fun h => hs.2 (h ▸ .head _), hs.1⟩
    have hsplit : ∀ q, sitesIn q (.opened path (.ok content) :: (inner ++ evs))
        = sitesIn q inner ++ sitesIn q evs := fun q => sitesIn_append q inner evs
    refine ⟨?_, fun q c hm => ?_⟩
    · have hnil : sitesIn file inner = [] := hin.sitesIn_eq_nil hpath (houter path hnew.1).symm
        fun hk => (hin.opens_once.2 _ hk).1 (.tail _ hc)
      rw [hsplit, hnil, hown]
      rfl
    rw [hsplit]
    rcases List.mem_cons.1 hm with hm | hm
    · cases hm
      have hnil : sitesIn path evs = [] := hrest.sitesIn_eq_nil hrests (houter path hnew.1)
        fun hk => (hlater _ hk).1 rfl
      rw [hnil, List.append_nil, hownIn]
    rcases List.mem_append.1 hm with hm | hm
    · have hk : lib.key q ∈ lib.opened inner := mem_opened hm
      have hnil : sitesIn q evs = [] := hrest.sitesIn_eq_nil hrests
        (houter q fun h => (hin.opens_once.2 _ hk).1 (.tail _ h)) fun h => (hlater _ h).2 hk
      rw [hnil, List.append_nil, hothersIn q c hm]
    · have hk := hlater _ (mem_opened hm)
      have hnil : sitesIn q inner = [] := hin.sitesIn_eq_nil hpath (fun h => hk.1 (h ▸ rfl)) hk.2
      rw [hnil, List.nil_append, hothers q c hm]

end

/-! ## Whole sources -/

namespace Reading

/-- The keys of the files that inclusions lead to from `root`. -/
inductive Reachable (lib : Library) (files : List (Text × Text)) (root : Text) : Text → Prop
  | root : Reachable lib files root (lib.key root)
  | step {path content name path' : Text} {loc : Location} (hf : (path, content) ∈ files)
    (h : Reachable lib files root (lib.key path))
    (hi : .inclusion name path' loc ∈ Piece.ofSource path content) :
    Reachable lib files root (lib.key path')

section
variable {lib : Library} {st : Reading} {file content : Text} {evs : List Event}
  {e : Option Failure}

/-- The files of a run that does not fail are those that can be reached. -/
theorem reachable_iff (h : Run lib {} file content evs none) (key : Text) :
    Reachable lib (filesOf file content evs) file key ↔
      key ∈ (filesOf file content evs).map fun f => lib.key f.1 := by
  refine ⟨fun hr => ?_, fun hk => ?_⟩
  · induction hr with
    | root => exact .head _
    | @step path text name path' loc hf hr hi ih =>
      obtain ⟨hc, hs⟩ := h.included_met (mem_met_ofSource.2 ⟨path, text, hf, hi⟩)
      rcases mem_seen_after.1 hs with hs | hs
      · obtain ⟨p, hp, hkey⟩ := List.mem_map.1 hs
        obtain ⟨ev, hev, hpath⟩ := List.mem_filterMap.1 hp
        cases ev with
        | token | definition => cases hpath
        | opened q r =>
          obtain rfl := Option.some.inj hpath
          obtain ⟨c, rfl⟩ := h.read_of_opened hev
          exact List.mem_map.2 ⟨(q, c), mem_filesOf.2 (.inr hev), hkey⟩
      · exact absurd hs hc
  · obtain ⟨⟨path, text⟩, hf, rfl⟩ := List.mem_map.1 hk
    rcases mem_filesOf.1 hf with ⟨rfl, rfl⟩ | hm
    · exact .root
    · refine h.opened_of_included ?_ ?_ _ (mem_opened hm)
      · exact fun name p loc hi => .step (.head _) .root hi
      · exact fun p c hm hr name p' loc hi => .step (mem_filesOf.2 (.inr hm)) hr hi

/-- The outcome of a source depends on the files that are opened alone. -/
theorem source_congr (h : Run lib st file content evs e) {lib' : Library}
    (hcwd : lib'.cwd = lib.cwd) (hread : ∀ path r, .opened path r ∈ evs → lib'.read path = r) :
    source lib' st file content = source lib st file content := by
  have hkey := Library.key_congr hcwd
  have henter : st.enter lib' file = st.enter lib file := by rw [enter, enter, hkey]
  have hrun' : Run lib' st file content evs e := by
    rw [Run, hkey, henter]
    exact h.transfer hcwd hread
  rw [source_of_run h, source_of_run hrun', henter, after_congr hcwd]

end

/-- **Includes are a depth-first splice of files that are each read once.** Reading a source on its
own is one walk over its pieces, which opens no file twice, and its outcome depends on the files that it
opens alone. Every token is replaced, at its place, by what it stands for after all that comes
before it, included files among it. When the walk does not fail, its files are those that inclusions
lead to, and the tokens of each are taken once, in order. -/
theorem source_includes_once (lib : Library) (file content : Text) : ∃ evs e,
    Run lib {} file content evs e ∧ (source lib {} file content).1 = Event.outcome evs e ∧
    (∀ evs' e', Run lib {} file content evs' e' → evs' = evs ∧ e' = e) ∧
    (lib.key file :: lib.opened evs).Nodup ∧
    (∀ lib' : Library, lib'.cwd = lib.cwd →
      (∀ path r, .opened path r ∈ evs → lib'.read path = r) →
      source lib' {} file content = source lib {} file content) ∧
    (∀ before t out rest, evs = before ++ .token t out :: rest →
      ((enter lib {} file).after lib before).macros.standsFor t = .ok out ∧
      ∀ o ∈ out, o.loc = t.loc) ∧
    (e = none →
      (∀ key, Reachable lib (filesOf file content evs) file key ↔
        key ∈ (filesOf file content evs).map fun f => lib.key f.1) ∧
      ∀ path text, (path, text) ∈ filesOf file content evs →
        sitesIn path evs = (Piece.ofSource path text).filterMap Piece.token?) := by
  obtain ⟨evs, e, hrun, hres⟩ := exists_run lib {} file content
  have honce := hrun.opens_once
  refine ⟨evs, e, hrun, congrArg Prod.fst hres, fun evs' e' h => h.unique hrun, ?_,
    fun lib' => source_congr hrun, ?_, ?_⟩
  · exact List.nodup_cons.2 ⟨fun hk => (honce.2 _ hk).1 (.head _), honce.1⟩
  · rintro before t out rest rfl
    have hout := hrun.faithful.at
    exact ⟨hout, MacroTable.loc_of_standsFor hout⟩
  · rintro rfl
    have hsites := hrun.sitesIn_eq (fun t => Piece.file_of_token_mem) (.head _)
    refine ⟨reachable_iff hrun, fun path text hf => ?_⟩
    rcases mem_filesOf.1 hf with ⟨rfl, rfl⟩ | hm
    · exact hsites.1
    · exact hsites.2 path text hm

/-- Two files that share a third one. -/
def sharing : Text := "include \"m\" include \"n\" ."

def sharingFiles : Library := .ofList "/" [("m", "1"), ("n", "include \"m\" dup")]

theorem run_sharing : Run sharingFiles {} "a" sharing
    [.opened "m" (.ok "1"), .token ⟨.integer, "1", ⟨"m", 1, 1⟩⟩ [⟨.integer, "1", ⟨"m", 1, 1⟩⟩],
     .opened "n" (.ok "include \"m\" dup"),
     .token ⟨.word, "DUP", ⟨"n", 1, 13⟩⟩ [⟨.word, "DUP", ⟨"n", 1, 13⟩⟩],
     .token ⟨.word, "PRINT_INT", ⟨"a", 1, 25⟩⟩ [⟨.word, "PRINT_INT", ⟨"a", 1, 25⟩⟩]] none := by
  have hname : Literal.unquote "\"m\"" = .ok "m" ∧ Literal.unquote "\"n\"" = .ok "n" := by
    decide +kernel
  have ha : Lexer.tokens "a" sharing = .ok [⟨.keyword, "INCLUDE", ⟨"a", 1, 1⟩⟩,
      ⟨.string, "\"m\"", ⟨"a", 1, 9⟩⟩, ⟨.keyword, "INCLUDE", ⟨"a", 1, 13⟩⟩,
      ⟨.string, "\"n\"", ⟨"a", 1, 21⟩⟩, ⟨.word, "PRINT_INT", ⟨"a", 1, 25⟩⟩] := by decide +kernel
  have hm : Lexer.tokens "m" "1" = .ok [⟨.integer, "1", ⟨"m", 1, 1⟩⟩] := by decide +kernel
  have hn : Lexer.tokens "n" "include \"m\" dup" = .ok [⟨.keyword, "INCLUDE", ⟨"n", 1, 1⟩⟩,
      ⟨.string, "\"m\"", ⟨"n", 1, 9⟩⟩, ⟨.word, "DUP", ⟨"n", 1, 13⟩⟩] := by decide +kernel
  have hroot : Piece.ofSource "a" sharing = [.inclusion "m" (Path.beside "a" "m") ⟨"a", 1, 9⟩,
      .inclusion "n" (Path.beside "a" "n") ⟨"a", 1, 21⟩,
      .token ⟨.word, "PRINT_INT", ⟨"a", 1, 25⟩⟩] := by
    simp +decide [Piece.ofSource, ha, Piece.ofTokens, hname]
  have hfirst : Walk sharingFiles ["/m", "/a"] { seen := ["/m", "/a"] } (Piece.ofSource "m" "1")
      [.token ⟨.integer, "1", ⟨"m", 1, 1⟩⟩ [⟨.integer, "1", ⟨"m", 1, 1⟩⟩]] none := by
    simp +decide only [Piece.ofSource, hm, Piece.ofTokens]
    exact .token rfl .done
  have hsecond : Walk sharingFiles ["/n", "/a"] { seen := ["/n", "/m", "/a"] }
      (Piece.ofSource "n" "include \"m\" dup")
      [.token ⟨.word, "DUP", ⟨"n", 1, 13⟩⟩ [⟨.word, "DUP", ⟨"n", 1, 13⟩⟩]] none := by
    simp +decide only [Piece.ofSource, hn, Piece.ofTokens, hname]
    exact .repeated (by decide) (by decide) (.token rfl .done)
  have hlast : Walk sharingFiles ["/a"] { seen := ["/n", "/m", "/a"] }
      [.token ⟨.word, "PRINT_INT", ⟨"a", 1, 25⟩⟩]
      [.token ⟨.word, "PRINT_INT", ⟨"a", 1, 25⟩⟩ [⟨.word, "PRINT_INT", ⟨"a", 1, 25⟩⟩]] none :=
    .token rfl .done
  have hinner : Walk sharingFiles ["/a"] { seen := ["/m", "/a"] }
      (.inclusion "n" (Path.beside "a" "n") ⟨"a", 1, 21⟩ :: _) _ none :=
    .included ⟨by decide, by decide⟩ rfl hsecond hlast
  have houter : Walk sharingFiles ["/a"] { seen := ["/a"] }
      (.inclusion "m" (Path.beside "a" "m") ⟨"a", 1, 9⟩ :: _) _ none :=
    .included ⟨by decide, by decide⟩ rfl hfirst hinner
  rw [Run, hroot]
  exact houter

theorem source_includes_once_sharing :
    (source sharingFiles {} "a" sharing).1 = .ok [⟨.integer, "1", ⟨"m", 1, 1⟩⟩,
      ⟨.word, "DUP", ⟨"n", 1, 13⟩⟩, ⟨.word, "PRINT_INT", ⟨"a", 1, 25⟩⟩] ∧
    ∃ evs, Run sharingFiles {} "a" sharing evs none ∧ sharingFiles.opened evs = ["/m", "/n"] ∧
      (sharingFiles.key "a" :: sharingFiles.opened evs).Nodup ∧
      sitesIn "m" evs = (Piece.ofSource "m" "1").filterMap Piece.token? := by
  obtain ⟨evs, e, hrun, hres, -, hnodup, -, -, hnone⟩ := source_includes_once sharingFiles "a" sharing
  obtain ⟨rfl, rfl⟩ := run_sharing.unique hrun
  exact ⟨hres, _, hrun, by decide, hnodup, (hnone rfl).2 "m" "1" (.tail _ (.head _))⟩

end Reading

end StackLang
