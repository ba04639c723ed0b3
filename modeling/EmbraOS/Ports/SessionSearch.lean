import EmbraOS.Verified.BytePlaces
import EmbraOS.Verified.Casing
import EmbraOS.Verified.Words
import EmbraOS.Ports.SessionRead

/-!
# `session_search`

Port of the search over session histories of `embra-brain/src/tools/sessions.rs`, without its
pass over tool traces.  A turn is lowered to be matched, and the place of the match in the lowered
text is used to cut the snippet from the turn itself.

`snippet_shows_of_near`: the search lists the first twenty turns that match, each with a slice of
the turn; the slice shows what was matched if no letter before the end of the match is moved by
more than the pad when the turn is lowered.
-/

namespace EmbraOS.Ports.SessionSearch

open String (utf8Len)
open Verified.BytePlaces
open Verified.Casing
open Verified.Search (before? before?_eq_none before?_isSome_iff before?_spec)
open Verified.Serde
open Verified.Text (asciiLower concat isWhitespace trim)
open Verified.Words (words)
open Ports.SessionRead (Store deletedSessionNotice)

/-! ## The query -/

/-- A query that searches for words has one. -/
structure SessionQueryPlan where
  phraseMode : Bool
  coreLower : List Char
  tokens : List (List Char)
  display : String
  searchable : phraseMode = false → tokens ≠ []
deriving DecidableEq

namespace SessionQueryPlan

def parse (t : Tables) (query : String) : Option SessionQueryPlan :=
  let trimmed := trim query
  if trimmed = "" then none
  else
    let text := trimmed.toList
    if text.head? = some '"' ∧ text.getLast? = some '"' ∧ 2 ≤ trimmed.utf8ByteSize then
      some ⟨true, t.lower text.tail.dropLast, [], trimmed, Bool.noConfusion⟩
    else
      let coreLower := t.lower text
      let tokens := words (fun c => !isWhitespace c) coreLower
      if h : tokens = [] then none else some ⟨false, coreLower, tokens, trimmed, fun _ => h⟩

/-- What the snippet is to be around: the phrase, or the first word. -/
def anchor (plan : SessionQueryPlan) : List Char :=
  if plan.phraseMode then plan.coreLower else plan.tokens.headD []

/-- `find`, as a byte place. -/
def find (text pat : List Char) : Option Nat := (before? pat text).map utf8Len

def contains (text pat : List Char) : Bool := (find text pat).isSome

def matchTurn (plan : SessionQueryPlan) (contentLower : List Char) : Option (Nat × Nat) :=
  if plan.phraseMode then
    (find contentLower plan.coreLower).map fun p => (p, utf8Len plan.coreLower)
  else if plan.tokens.all (contains contentLower) then
    some ((find contentLower plan.anchor).getD 0, utf8Len plan.anchor)
  else none

end SessionQueryPlan

open SessionQueryPlan

/-! ## The search -/

/-- `snippet_around`; `none` where the slice would be refused. -/
def snippetAround (text : List Char) (pos len pad : Nat) : Option (List Char) :=
  slice? text (floorBoundary text (pos - pad))
    (ceilBoundary text (min (pos + len + pad) (utf8Len text)))

structure Hit where
  name : String
  index : Nat
  role : String
  snippet : List Char
deriving DecidableEq

def content (turn : Json) : List Char := ((strField turn "content").getD "").toList

def role (turn : Json) : String := (strField turn "role").getD "?"

/-- The results after one more turn. -/
def searchTurn (t : Tables) (plan : SessionQueryPlan) (name : String) (i : Nat) (turn : Json)
    (results : List Hit) : Option (List Hit) :=
  match plan.matchTurn (t.lower (content turn)) with
  | some (pos, len) =>
    (snippetAround (content turn) pos len 50).map fun snippet =>
      results ++ [⟨name, i, role turn, snippet⟩]
  | none => some results

def searchTurns (t : Tables) (plan : SessionQueryPlan) (name : String) :
    Nat → List Json → List Hit → Option (List Hit)
  | _, [], results => some results
  | i, turn :: turns, results =>
    (searchTurn t plan name i turn results).bind fun results =>
      if 20 ≤ results.length then some results
      else searchTurns t plan name (i + 1) turns results

def searchNames (t : Tables) (plan : SessionQueryPlan) (store : Store) :
    List String → List Hit → Option (List Hit)
  | [], results => some results
  | name :: names, results =>
    (searchTurns t plan name 0 (store name).turns results).bind fun results =>
      if 20 ≤ results.length then some results else searchNames t plan store names results

/-- The sessions to search, or the notice that there is nothing to search. -/
def namesToSearch (store : Store) (sessionNames : List String) :
    Option String → Except String (List String)
  | some s =>
    if s = "" then .ok (sessionNames.filter fun name => !(store name).deleted)
    else if (store s).deleted then .error (deletedSessionNotice s)
    else .ok [s]
  | none => .ok (sessionNames.filter fun name => !(store name).deleted)

def hitLine (h : Hit) : String :=
  h.name ++ " turn #" ++ Nat.repr (h.index + 1) ++ " [" ++ h.role ++ "]: ..." ++
    String.ofList h.snippet ++ "..."

def render (display : String) (results : List Hit) : String :=
  if results = [] then
    "No matches found for '" ++ display ++ "'. Unquoted terms AND-match (all must appear in the " ++
      "same turn); wrap in double quotes for literal phrase."
  else
    "Search results for '" ++ display ++ "' (" ++ Nat.repr results.length ++ " matches):\n\n" ++
      concat (results.map fun h => hitLine h ++ "\n")

/-- `session_search` without tool metadata; `none` where it would panic. -/
def sessionSearch (t : Tables) (store : Store) (sessionNames : List String) (query : String)
    (session : Option String) : Option String :=
  match parse t query with
  | none => some ("Usage: session_search <query> (unquoted terms AND-match; wrap in double " ++
      "quotes for literal phrase). Pass `session` to narrow to a single session.")
  | some plan =>
    match namesToSearch store sessionNames session with
    | .error notice => some notice
    | .ok names => (searchNames t plan store names []).map (render plan.display)

/-! ## What matches -/

/-- The lowered turn has the phrase, or every word. -/
def Matches (t : Tables) (plan : SessionQueryPlan) (text : List Char) : Prop :=
  if plan.phraseMode then plan.coreLower <:+: t.lower text
  else ∀ token ∈ plan.tokens, token <:+: t.lower text

instance decidableMatches (t : Tables) (plan : SessionQueryPlan) (text : List Char) :
    Decidable (Matches t plan text) :=
  inferInstanceAs (Decidable (if plan.phraseMode then _ else _))

/-- The turns that match, by session and place. -/
def matching (t : Tables) (plan : SessionQueryPlan) (store : Store) (names : List String) :
    List (String × Nat) :=
  names.flatMap fun name =>
    ((store name).turns.zipIdx.filter fun p => Matches t plan (content p.1)).map fun p =>
      (name, p.2)

theorem contains_iff (text pat : List Char) : contains text pat = true ↔ pat <:+: text := by
  unfold contains find
  rw [Option.isSome_map]
  exact before?_isSome_iff

variable {text : List Char} {t : Tables} {plan : SessionQueryPlan}

theorem find_of_infix {pat : List Char} (h : pat <:+: text) :
    ∃ front, before? pat text = some front ∧ find text pat = some (utf8Len front) := by
  obtain ⟨front, hfront⟩ := Option.isSome_iff_exists.1 (before?_isSome_iff.2 h)
  refine ⟨front, hfront, ?_⟩
  rw [find, hfront]
  rfl

theorem all_tokens_iff (t : Tables) (plan : SessionQueryPlan) (text : List Char) :
    plan.tokens.all (contains (t.lower text)) = true ↔
      ∀ token ∈ plan.tokens, token <:+: t.lower text := by
  rw [List.all_eq_true]
  exact forall₂_congr fun token _ => contains_iff _ token

/-- A turn that matches is found at the first place of the anchor. -/
theorem matchTurn_of_matches
    (h : Matches t plan text) : ∃ front, before? plan.anchor (t.lower text) = some front ∧
      plan.matchTurn (t.lower text) = some (utf8Len front, utf8Len plan.anchor) := by
  unfold Matches at h
  unfold matchTurn
  by_cases hmode : plan.phraseMode = true
  · rw [if_pos hmode] at h ⊢
    have hanchor : plan.anchor = plan.coreLower := if_pos hmode
    rw [hanchor]
    obtain ⟨front, hfront, hfind⟩ := find_of_infix h
    refine ⟨front, hfront, ?_⟩
    rw [hfind]
    rfl
  · rw [if_neg hmode] at h ⊢
    rw [if_pos ((all_tokens_iff t plan text).2 h)]
    have hanchor : plan.anchor ∈ plan.tokens := by
      obtain ⟨first, rest, htokens⟩ :=
        List.exists_cons_of_ne_nil (plan.searchable (Bool.eq_false_iff.2 hmode))
      rw [anchor, if_neg hmode, htokens]
      exact List.mem_cons_self
    obtain ⟨front, hfront, hfind⟩ := find_of_infix (h _ hanchor)
    refine ⟨front, hfront, ?_⟩
    rw [hfind]
    rfl

theorem matchTurn_of_not_matches
    (h : ¬ Matches t plan text) : plan.matchTurn (t.lower text) = none := by
  unfold Matches at h
  unfold matchTurn
  by_cases hmode : plan.phraseMode = true
  · rw [if_pos hmode] at h ⊢
    rw [find, before?_eq_none h]
    rfl
  · rw [if_neg hmode] at h ⊢
    exact if_neg fun hall => h ((all_tokens_iff t plan text).1 hall)

/-! ## The results -/

/-- The part of a turn that is cut for a match behind `front`. -/
def snippetWindow (plan : SessionQueryPlan) (text front : List Char) :
    Window text (utf8Len front - 50) (utf8Len front + utf8Len plan.anchor + 50) :=
  window (by omega) text

theorem snippetAround_eq (plan : SessionQueryPlan) (text front : List Char) :
    snippetAround text (utf8Len front) (utf8Len plan.anchor) 50 =
      some (snippetWindow plan text front).inside :=
  slice?_window _

/-- What is listed for a turn that matches. -/
def hitOf (t : Tables) (plan : SessionQueryPlan) (name : String) (p : Json × Nat) : Hit :=
  let text := content p.1
  ⟨name, p.2, role p.1,
    (snippetWindow plan text ((before? plan.anchor (t.lower text)).getD [])).inside⟩

/-- What is listed for the turns of a session, if there is no bound. -/
def hits (t : Tables) (plan : SessionQueryPlan) (name : String) (turns : List (Json × Nat)) :
    List Hit :=
  (turns.filter fun p => Matches t plan (content p.1)).map (hitOf t plan name)

theorem searchTurn_eq (t : Tables) (plan : SessionQueryPlan) (name : String) (i : Nat)
    (turn : Json) (results : List Hit) :
    searchTurn t plan name i turn results =
      some (results ++ hits t plan name [(turn, i)]) := by
  unfold searchTurn
  by_cases hmatch : Matches t plan (content turn)
  · obtain ⟨front, hfront, hfound⟩ := matchTurn_of_matches hmatch
    have hhits : hits t plan name [(turn, i)] = [hitOf t plan name (turn, i)] := by
      simp [hits, hmatch]
    rw [hfound, hhits, hitOf, hfront]
    dsimp only
    rw [snippetAround_eq]
    rfl
  · rw [matchTurn_of_not_matches hmatch]
    simp [hits, hmatch]

/-- Twenty results are enough: what follows does not change the list. -/
theorem take_of_full {results more : List Hit} (h : 20 ≤ results.length)
    (hle : results.length ≤ 20) : results = (results ++ more).take 20 := by
  rw [List.take_append_of_le_length h, List.take_of_length_le hle]

theorem hits_cons (t : Tables) (plan : SessionQueryPlan) (name : String) (p : Json × Nat)
    (turns : List (Json × Nat)) :
    hits t plan name (p :: turns) = hits t plan name [p] ++ hits t plan name turns := by
  unfold hits
  rw [← List.map_append, ← List.filter_append]
  rfl

theorem length_hits_singleton (t : Tables) (plan : SessionQueryPlan) (name : String)
    (p : Json × Nat) : (hits t plan name [p]).length ≤ 1 := by
  unfold hits
  rw [List.length_map]
  exact List.length_filter_le _ _

theorem searchTurns_eq (t : Tables) (plan : SessionQueryPlan) (name : String)
    (turns : List Json) : ∀ (i : Nat) (results : List Hit), results.length < 20 →
      searchTurns t plan name i turns results =
        some ((results ++ hits t plan name (turns.zipIdx i)).take 20) := by
  induction turns with
  | nil =>
    intro i results hlen
    rw [searchTurns, List.zipIdx_nil]
    simp [hits, List.take_of_length_le (Nat.le_of_lt hlen)]
  | cons turn turns ih =>
    intro i results hlen
    have hone := length_hits_singleton t plan name (turn, i)
    rw [searchTurns, searchTurn_eq, Option.bind_some, List.zipIdx_cons,
      hits_cons t plan name (turn, i) (turns.zipIdx (i + 1)), ← List.append_assoc]
    split
    · rename_i hfull
      congr 1
      apply take_of_full hfull
      rw [List.length_append]
      omega
    · rename_i hmore
      exact ih (i + 1) _ (Nat.lt_of_not_le hmore)

/-- What is listed for some sessions, if there is no bound. -/
def allHits (t : Tables) (plan : SessionQueryPlan) (store : Store) (names : List String) :
    List Hit :=
  names.flatMap fun name => hits t plan name (store name).turns.zipIdx

theorem searchNames_eq (t : Tables) (plan : SessionQueryPlan) (store : Store)
    (names : List String) : ∀ results : List Hit, results.length < 20 →
      searchNames t plan store names results =
        some ((results ++ allHits t plan store names).take 20) := by
  unfold allHits
  induction names with
  | nil =>
    intro results hlen
    rw [searchNames, List.flatMap_nil, List.append_nil,
      List.take_of_length_le (Nat.le_of_lt hlen)]
  | cons name names ih =>
    intro results hlen
    rw [searchNames, searchTurns_eq t plan name _ 0 results hlen, Option.bind_some,
      List.flatMap_cons, ← List.append_assoc]
    split
    · rename_i hfull
      rw [List.length_take] at hfull
      rw [List.take_append_of_le_length (le_trans hfull (min_le_right _ _))]
    · rename_i hmore
      rw [List.length_take] at hmore
      rw [List.take_of_length_le (by omega)]
      exact ih _ (by omega)

/-! ## The snippets -/

theorem infix_snippet {front : List Char} (hfront : before? plan.anchor (t.lower text) = some front)
    (hsigma : 'Σ' ∉ text) (hnear : Near t.toLower text 50 (front ++ plan.anchor).length) :
    plan.anchor <:+: t.lower (snippetWindow plan text front).inside := by
  by_cases hanchor : plan.anchor = []
  · have hnil : ∀ m, plan.anchor <:+: m := fun _ => hanchor ▸ List.nil_infix
    exact hnil _
  have hinside : 'Σ' ∉ (snippetWindow plan text front).inside := by
    intro hmem
    rw [(snippetWindow plan text front).whole] at hsigma
    exact hsigma (List.mem_append_left _ (List.mem_append_right _ hmem))
  obtain ⟨⟨back, hback⟩, -⟩ := before?_spec hfront
  rw [t.lower_eq_flatMap hsigma] at hback
  rw [t.lower_eq_flatMap hinside]
  exact infix_inside hback hanchor hnear _

theorem hitOf_eq {p : Json × Nat} {front : List Char}
    (h : before? plan.anchor (t.lower (content p.1)) = some front) (name : String) :
    hitOf t plan name p =
      ⟨name, p.2, role p.1, (snippetWindow plan (content p.1) front).inside⟩ := by
  rw [hitOf, h]
  rfl

/-- What is listed stands for a turn that matches. -/
theorem mem_allHits {store : Store} {names : List String}
    {h : Hit} (hin : h ∈ allHits t plan store names) :
    ∃ turn, (store h.name).turns[h.index]? = some turn ∧ Matches t plan (content turn) ∧
      h = hitOf t plan h.name (turn, h.index) := by
  obtain ⟨name, -, hname⟩ := List.mem_flatMap.1 hin
  obtain ⟨⟨turn, i⟩, hp, rfl⟩ := List.mem_map.1 hname
  obtain ⟨hturn, hmatch⟩ := List.mem_filter.1 hp
  exact ⟨turn, List.mk_mem_zipIdx_iff_getElem?.1 hturn, of_decide_eq_true hmatch, rfl⟩

theorem map_allHits (t : Tables) (plan : SessionQueryPlan) (store : Store) (names : List String) :
    (allHits t plan store names).map (fun h => (h.name, h.index)) =
      matching t plan store names := by
  rw [allHits, List.map_flatMap]
  unfold matching hits
  simp only [List.map_map]
  rfl

/-- The search lists the first twenty turns that match, in the order of the sessions and of their
turns, each with a slice of the turn.  The slice shows the phrase or first word if the turn has no
capital sigma and up to the end of the match its letters and their lower case begin and end within
fifty bytes of each other. -/
theorem snippet_shows_of_near (t : Tables) (store : Store) (sessionNames : List String)
    (query : String) (session : Option String) (plan : SessionQueryPlan) (names : List String)
    (hplan : parse t query = some plan)
    (hnames : namesToSearch store sessionNames session = .ok names) :
    ∃ results, sessionSearch t store sessionNames query session =
        some (render plan.display results) ∧
      results.map (fun h => (h.name, h.index)) = (matching t plan store names).take 20 ∧
      ∀ h ∈ results, ∃ turn front, (store h.name).turns[h.index]? = some turn ∧
        before? plan.anchor (t.lower (content turn)) = some front ∧
        h.snippet <:+: content turn ∧
        ('Σ' ∉ content turn → Near t.toLower (content turn) 50 (front ++ plan.anchor).length →
          plan.anchor <:+: t.lower h.snippet) := by
  have hsearch := searchNames_eq t plan store names [] (by decide)
  rw [List.nil_append] at hsearch
  refine ⟨(allHits t plan store names).take 20, ?_, ?_, ?_⟩
  · rw [sessionSearch, hplan]
    rw [hnames]
    dsimp only
    rw [hsearch]
    rfl
  · rw [List.map_take, map_allHits]
  · intro h hh
    obtain ⟨turn, hturn, hmatch, heq⟩ := mem_allHits (List.mem_of_mem_take hh)
    obtain ⟨front, hfront, -⟩ := matchTurn_of_matches hmatch
    have hsnippet : h.snippet = (snippetWindow plan (content turn) front).inside := by
      rw [heq, hitOf_eq (p := (turn, h.index)) hfront]
    refine ⟨turn, front, hturn, hfront, ?_, ?_⟩
    · rw [hsnippet]
      have hwhole := (snippetWindow plan (content turn) front).whole
      exact ⟨_, _, hwhole.symm⟩
    · rw [hsnippet]
      exact infix_snippet hfront

/-- The tables on the letters of ASCII and the dotted capital I, which is lowered to an i and a
combining dot. -/
def latin : Tables where
  toLower := fun c => if c = 'İ' then ['i', '\u0307'] else [asciiLower c]
  cased := fun c => c.isAlpha || c = 'İ'
  caseIgnorable := fun c => c = '.' || c = '\u0307'

/-- A session with one turn. -/
def oneTurn (text : List Char) : Store := fun _ =>
  ⟨false, [.obj [("role", .str "user"), ("content", .str (String.ofList text))]],
    show 1 < 2 ^ 63 by decide⟩

theorem content_oneTurn {name : String} {turn : Json}
    (h : (oneTurn text name).turns[0]? = some turn) : content turn = text := by
  obtain rfl := Option.some.inj h
  exact String.toList_ofList

def wordPlan : SessionQueryPlan :=
  ⟨false, "word".toList, ["word".toList], "word", fun _ => List.cons_ne_nil _ _⟩

/-- Behind a letter that lowering makes longer the word is found and shown. -/
theorem snippet_shows_of_near_word :
    ∃ results, sessionSearch latin (oneTurn "İzmir Word".toList) ["ops"] "word" none =
        some (render wordPlan.display results) ∧
      results.map (fun h => (h.name, h.index)) = [("ops", 0)] ∧
      ∀ h ∈ results, "word".toList <:+: latin.lower h.snippet := by
  obtain ⟨results, hsearch, hlist, hall⟩ := snippet_shows_of_near latin
    (oneTurn "İzmir Word".toList) ["ops"] "word" none wordPlan ["ops"] (by decide +kernel) rfl
  have hmatching : (matching latin wordPlan (oneTurn "İzmir Word".toList) ["ops"]).take 20 =
      [("ops", 0)] := by decide +kernel
  rw [hmatching] at hlist
  refine ⟨results, hsearch, hlist, fun h hh => ?_⟩
  obtain ⟨turn, front, hturn, hfront, -, hshows⟩ := hall h hh
  have hplace : (h.name, h.index) = ("ops", 0) := by
    have hmem := List.mem_map_of_mem (f := fun h : Hit => (h.name, h.index)) hh
    rwa [hlist, List.mem_singleton] at hmem
  rw [(Prod.mk.inj hplace).2] at hturn
  rw [content_oneTurn hturn] at hfront hshows
  have hbefore : before? wordPlan.anchor (latin.lower "İzmir Word".toList) =
      some "i\u0307zmir ".toList := by decide +kernel
  obtain rfl := Option.some.inj (hbefore.symm.trans hfront)
  exact hshows (by decide +kernel) (by decide +kernel)

/-- Sixty letters that lowering makes longer put the match beyond the end of the turn: the word is
found and the snippet is empty. -/
theorem snippet_misses_word :
    sessionSearch latin (oneTurn (List.replicate 60 'İ' ++ "word".toList)) ["ops"] "word" none =
      some "Search results for 'word' (1 matches):\n\nops turn #1 [user]: ......\n" := by
  decide +kernel

end EmbraOS.Ports.SessionSearch
