import EmbraOS.Verified.Search
import EmbraOS.Verified.Text

/-!
# The URLs the git tools hand to git

Port of `validate_clone_url`, `option_shaped_authority`, `positional` and
`fetch_remote` of `embra-brain/src/tools/engineering/git.rs`.  A text is the list of its
characters.

What git reads in a URL is stated apart, as a grammar (`Reads`): `scheme://` with an
authority, or the scp form.  `accepted_safe_iff` says which of the accepted URLs are
harmless in that reading.  Two kinds escape the check: a bracketed host of the scp form,
which the check reads with its brackets, and a scheme other than the four, whose name is
taken for the host of an scp form.
-/

namespace EmbraOS.Ports.GitUrl

open Verified
open Verified.Search (splitOnce rsplitOnce before?)
open Verified.Text (asciiLower isAsciiAlphanumeric containsList)

abbrev Text := List Char

/-! ## The checks -/

def positional (token : Text) (what : String) : Except String Text :=
  if token.head? = some '-' then
    .error ("Denied: " ++ what ++ " '" ++ String.ofList token ++
      "' begins with '-', which git would read as an option")
  else .ok token

/-- The authority at its last `@`. -/
def splitUser (authority : Text) : Option Text × Text :=
  match rsplitOnce '@' authority with
  | some (user, hostport) => (some user, hostport)
  | none => (none, authority)

/-- The host and the port; the scp form has no port. -/
def splitPort (withPort : Bool) (hostport : Text) : Text × Option Text :=
  if withPort = false then (hostport, none)
  else
    match hostport with
    | '[' :: bracketed =>
      match splitOnce ']' bracketed with
      | some (host, rest) => (host, rest.dropPrefix? [':'])
      | none => (hostport, none)
    | _ =>
      match rsplitOnce ':' hostport with
      | some (host, port) => (host, some port)
      | none => (hostport, none)

/-- One round of the loop over the user, the host and the port. -/
def checkPart (url : Text) (part : String × Option Text) : Except String Unit :=
  match part.2 with
  | none => .ok ()
  | some value =>
    if value.head? = some '-' then
      .error ("Denied: '" ++ String.ofList url ++ "' names the " ++ part.1 ++ " '" ++
        String.ofList value ++ "', which begins with '-' and would be read as an option")
    else if '%' ∈ value then
      .error ("Denied: '" ++ String.ofList url ++ "' percent-encodes its " ++ part.1 ++ " '" ++
        String.ofList value ++
        "'; git decodes it before its own checks, so write it as it is")
    else .ok ()

structure Parts where
  user : Option Text
  host : Text
  port : Option Text

/-- The three parts as the check takes them apart. -/
def splitParts (withPort : Bool) (authority : Text) : Parts :=
  let (user, hostport) := splitUser authority
  let (host, port) := splitPort withPort hostport
  ⟨user, host, port⟩

def optionShapedAuthority (url authority : Text) (withPort : Bool) : Except String Unit :=
  let parts := splitParts withPort authority
  [("user", parts.user), ("host", some parts.host), ("port", parts.port)].forM (checkPart url)

/-- The helper a URL names in front of its first `::`. -/
def helper? (url : Text) : Option Text :=
  (before? "::".toList url).filter fun helper => '/' ∉ helper && ':' ∉ helper

/-- What stands in front of the first colon, when it can be a host. -/
def scpHost? (url : Text) : Option Text :=
  ((splitOnce ':' url).map Prod.fst).filter fun host => host ≠ [] && '/' ∉ host

def cloneSchemes : List Text :=
  ["https://".toList, "http://".toList, "ssh://".toList, "git://".toList]

/-- The scheme of the list that the URL, in lower case, begins with. -/
def cloneScheme? (url : Text) : Option Text :=
  cloneSchemes.find? fun scheme => scheme.isPrefixOf (url.map asciiLower)

def validateCloneUrl (url : Text) : Except String Unit :=
  let named := "Denied: '" ++ String.ofList url ++ "'"
  if url.head? = some '-' then
    .error (named ++ " begins with '-', which git would read as an option")
  else
    match helper? url with
    | some helper =>
      .error (named ++ " names the remote helper '" ++ String.ofList helper ++
        "::'; git_clone takes https://, http://, ssh://, git:// or user@host:path")
    | none =>
      if "file:".toList.isPrefixOf (url.map asciiLower) then
        .error (named ++ " is a file:// URL; the filesystem is not a clone source")
      else if url.head? = some '/' ∨ url.head? = some '.' ∨ url.head? = some '~' then
        .error (named ++ " is a local path; the filesystem is not a clone source")
      else
        match cloneScheme? url with
        | some scheme =>
          let authority := (url.drop scheme.length).takeWhile (· ≠ '/')
          optionShapedAuthority url authority true
        | none =>
          match scpHost? url with
          | some host => optionShapedAuthority url host false
          | none =>
            .error (named ++ " is not a git URL the clone tool accepts (https://, " ++
              "http://, ssh://, git://, or user@host:path)")

/-- The remotes of a fetch that are read as a URL. -/
def urlShaped (remote : Text) : Bool :=
  containsList "://".toList remote || (scpHost? remote).isSome

def fetchRemote (remote : Text) : Except String Text :=
  if urlShaped remote then do
    validateCloneUrl remote
    return remote
  else positional remote "remote"

/-! ## What git reads -/

/-- The characters of a scheme. -/
def isSchemeChar (c : Char) : Bool :=
  isAsciiAlphanumeric c || c == '+' || c == '-' || c == '.'

/-- `scheme://authority`, and a path. -/
structure SchemeUrl (url scheme authority : Text) : Prop where
  split : ∃ path, url = scheme ++ ':' :: '/' :: '/' :: (authority ++ path) ∧
    (path = [] ∨ ∃ rest, path = '/' :: rest)
  chars : ∀ c ∈ scheme, isSchemeChar c = true
  first : ∃ c rest, scheme = c :: rest ∧ isAsciiAlphanumeric c = true
  no_slash : '/' ∉ authority

/-- The spelling of a host: as it is, or in brackets.  The `@` ends the user, so a host
has none. -/
inductive Spells : Text → Text → Prop
  | plain {host : Text} (hcolon : ':' ∉ host) (hat : '@' ∉ host) (hopen : host.head? ≠ some '[') :
      Spells host host
  | bracketed {host : Text} (hclose : ']' ∉ host) (hat : '@' ∉ host) :
      Spells ('[' :: (host ++ [']'])) host

def userText : Option Text → Text
  | none => []
  | some user => user ++ ['@']

def portText : Option Text → Text
  | none => []
  | some port => ':' :: port

/-- `[user@]host[:port]`. -/
structure AuthorityOf (authority : Text) (parts : Parts) : Prop where
  split : ∃ spelt, Spells spelt parts.host ∧
    authority = userText parts.user ++ (spelt ++ portText parts.port)
  port : ∀ port, parts.port = some port → ':' ∉ port ∧ '@' ∉ port

/-- `[user@]host:path`, with the host in the spelling `spelt`. -/
structure ScpUrl (url : Text) (user : Option Text) (spelt host : Text) : Prop where
  no_scheme : ∀ scheme authority, ¬ SchemeUrl url scheme authority
  spells : Spells spelt host
  split : ∃ path, url = userText user ++ (spelt ++ ':' :: path)
  user : ∀ name, user = some name → ':' ∉ name

/-- The user, the host and the port git reads in a URL. -/
inductive Reads (url : Text) : Parts → Prop
  | scheme {scheme authority : Text} {parts : Parts} (hurl : SchemeUrl url scheme authority)
      (hparts : AuthorityOf authority parts) : Reads url parts
  | scp {user : Option Text} {spelt host : Text} (hurl : ScpUrl url user spelt host) :
      Reads url ⟨user, host, none⟩

/-! ## What the URL must not be -/

/-- Not an option, and not percent-encoded. -/
def Fine (value : Text) : Prop := value.head? ≠ some '-' ∧ '%' ∉ value

structure Parts.Fine (parts : Parts) : Prop where
  user : ∀ value, parts.user = some value → GitUrl.Fine value
  host : GitUrl.Fine parts.host
  port : ∀ value, parts.port = some value → GitUrl.Fine value

/-- A path of this filesystem: in front of every colon stands a slash. -/
def IsLocal (url : Text) : Prop := ∀ front rest, url = front ++ ':' :: rest → '/' ∈ front

/-- A remote helper is named in front of `::`, or by a scheme for which git has no
transport of its own. -/
def NamesHelper (own : Text → Prop) (url : Text) : Prop :=
  (∃ name rest, url = name ++ "::".toList ++ rest ∧ ':' ∉ name ∧ '/' ∉ name) ∨
    ∃ scheme authority, SchemeUrl url scheme authority ∧ ¬ own scheme

structure Safe (own : Text → Prop) (url : Text) : Prop where
  not_local : ¬ IsLocal url
  not_file : ∀ scheme authority, SchemeUrl url scheme authority →
    scheme.map asciiLower ≠ "file".toList
  not_helper : ¬ NamesHelper own url
  parts : ∀ parts, Reads url parts → parts.Fine

/-- The URLs the check reads as git does, or to the same effect: a scheme is one of the
four, or one of git's own with a harmless authority, and the bracketed host of an scp
form is harmless. -/
structure Covered (own : Text → Prop) (url : Text) : Prop where
  own_scheme : ∀ scheme authority, SchemeUrl url scheme authority → own scheme
  scheme : ∀ scheme authority, SchemeUrl url scheme authority →
    scheme.map asciiLower ++ "://".toList ∈ cloneSchemes ∨
      ∀ parts, AuthorityOf authority parts → parts.Fine
  brackets : ∀ user host, ScpUrl url user ('[' :: (host ++ [']'])) host → Fine host

/-! ## The parts of an authority -/

variable {url authority rest spelt host scheme entry : Text} {user : Option Text}

theorem checkPart_ok {part : String × Option Text}
    (h : checkPart url part = .ok ()) : ∀ value, part.2 = some value → Fine value := by
  intro value hvalue
  rw [checkPart, hvalue] at h
  dsimp only at h
  split_ifs at h with hdash hpercent
  exact ⟨hdash, hpercent⟩

theorem forM_ok {parts : List (String × Option Text)}
    (h : parts.forM (checkPart url) = .ok ()) : ∀ part ∈ parts, checkPart url part = .ok () := by
  induction parts with
  | nil =>
    exact nofun
  | cons part parts ih =>
    change (checkPart url part >>= fun _ => parts.forM (checkPart url)) = .ok () at h
    cases hpart : checkPart url part with
    | error e =>
      rw [hpart] at h
      cases h
    | ok _ =>
      rw [hpart] at h
      exact List.forall_mem_cons.2 ⟨hpart, ih h⟩

/-- The loop passes only when each of the three passes. -/
theorem optionShapedAuthority_ok {withPort : Bool}
    (h : optionShapedAuthority url authority withPort = .ok ()) :
    (splitParts withPort authority).Fine := by
  have hparts := forM_ok h
  simp only [List.forall_mem_cons] at hparts
  exact ⟨checkPart_ok hparts.1, checkPart_ok hparts.2.1 _ rfl, checkPart_ok hparts.2.2.1⟩

theorem splitUser_userText (user : Option Text) (h : '@' ∉ rest) :
    splitUser (userText user ++ rest) = (user, rest) := by
  cases user with
  | none => rw [userText, List.nil_append, splitUser, Search.rsplitOnce_eq_none h]
  | some user =>
    rw [userText, List.append_assoc, List.singleton_append, splitUser,
      Search.rsplitOnce_append user h]

theorem splitPort_plain {hostport : Text} (h : ∀ rest, hostport ≠ '[' :: rest) :
    splitPort true hostport =
      match rsplitOnce ':' hostport with
      | some (host, port) => (host, some port)
      | none => (hostport, none) := by
  unfold splitPort
  split
  · contradiction
  · split
    · exact absurd rfl (h _)
    · rfl

/-- With a port the check takes a spelt host apart as git does. -/
theorem splitPort_spells (hspelt : Spells spelt host) {port : Option Text}
    (hport : ∀ value, port = some value → ':' ∉ value ∧ '@' ∉ value) :
    splitPort true (spelt ++ portText port) = (host, port) := by
  cases hspelt with
  | plain hcolon hat hopen =>
    have hfirst : ∀ rest, spelt ++ portText port ≠ '[' :: rest := by
      intro rest heq
      cases spelt with
      | nil => cases port <;> cases heq
      | cons c cs =>
        cases heq
        exact hopen rfl
    rw [splitPort_plain hfirst]
    cases port with
    | none => rw [portText, List.append_nil, Search.rsplitOnce_eq_none hcolon]
    | some port => rw [portText, Search.rsplitOnce_append spelt (hport port rfl).1]
  | bracketed hclose hat =>
    have hshape : '[' :: (host ++ [']']) ++ portText port =
        '[' :: (host ++ ']' :: portText port) := by simp
    have hcut := Search.splitOnce_append hclose (portText port)
    rw [hshape]
    simp only [splitPort, Bool.true_eq_false, if_false, hcut]
    cases port with
    | none => rfl
    | some port => simp [portText, List.dropPrefix?]

theorem Spells.no_at (h : Spells spelt host) : '@' ∉ spelt := by
  cases h with
  | plain _ hat _ => exact hat
  | bracketed _ hat => simp [hat]

/-- With a port the check reads an authority as git does. -/
theorem AuthorityOf.fine {parts : Parts} (h : AuthorityOf authority parts)
    (hok : optionShapedAuthority url authority true = .ok ()) : parts.Fine := by
  obtain ⟨spelt, hspelt, rfl⟩ := h.split
  have hat : '@' ∉ spelt ++ portText parts.port := by
    rw [List.mem_append]
    rintro (hin | hin)
    · exact hspelt.no_at hin
    · cases hport : parts.port with
      | none =>
        rw [hport] at hin
        cases hin
      | some port =>
        rw [hport, portText, List.mem_cons] at hin
        exact (h.port port hport).2 (hin.resolve_left (by decide))
  have hfine := optionShapedAuthority_ok hok
  rw [splitParts, splitUser_userText parts.user hat] at hfine
  dsimp only at hfine
  rw [splitPort_spells hspelt h.port] at hfine
  exact hfine

/-! ## The scheme -/

/-- Lower case keeps a character that is no letter, and reaches it from no other. -/
theorem asciiLower_eq_iff {c d : Char} (hd : isAsciiAlphanumeric d = false) :
    asciiLower c = d ↔ c = d := by
  have hlower : ∀ n < 26, isAsciiAlphanumeric (Char.ofNat (65 + n + 32)) = true := by decide
  by_cases hc : 'A' ≤ c ∧ c ≤ 'Z'
  · have hlow : 65 ≤ c.toNat := hc.1
    have hhigh : c.toNat ≤ 90 := hc.2
    have halnum := hlower (c.toNat - 65) (by omega)
    rw [show 65 + (c.toNat - 65) + 32 = c.toNat + 32 by omega] at halnum
    rw [asciiLower, if_pos hc]
    constructor
    · intro heq
      rw [heq, hd] at halnum
      cases halnum
    · intro heq
      rw [← heq] at hd
      simp [isAsciiAlphanumeric, hc.1, hc.2] at hd
  · rw [asciiLower, if_neg hc]

theorem mem_map_asciiLower_iff {d : Char} (hd : isAsciiAlphanumeric d = false) {text : Text} :
    d ∈ text.map asciiLower ↔ d ∈ text := by
  simp only [List.mem_map, asciiLower_eq_iff hd, exists_eq_right]

theorem eq_of_map_asciiLower {text pat : Text} (hpat : ∀ d ∈ pat, isAsciiAlphanumeric d = false)
    (h : text.map asciiLower = pat) : text = pat := by
  induction text generalizing pat with
  | nil => exact h
  | cons c text ih =>
    cases h
    have hc := (asciiLower_eq_iff (hpat _ List.mem_cons_self)).1 rfl
    rw [List.map_cons, ← ih (fun d hd => hpat d (List.mem_cons_of_mem _ hd)) rfl, ← hc]

theorem isAsciiAlphanumeric_of_lower {c : Char} (h : isAsciiAlphanumeric (asciiLower c) = true) :
    isAsciiAlphanumeric c = true := by
  by_contra hnot
  have hc : isAsciiAlphanumeric c = false := by simpa using hnot
  rw [(asciiLower_eq_iff hc).2 rfl, hc] at h
  cases h

theorem SchemeUrl.colon_notMem (h : SchemeUrl url scheme authority) :
    ':' ∉ scheme := by
  intro hmem
  exact absurd (h.chars ':' hmem) (by decide)

/-- The words of the list, without the colon and the slashes. -/
theorem mem_cloneSchemes (h : scheme ∈ cloneSchemes) :
    ∃ word, scheme = word ++ "://".toList ∧ word ≠ [] ∧ ':' ∉ word ∧
      ∀ c ∈ word, isAsciiAlphanumeric c = true := by
  have hletter : ∀ c : Char, 'a' ≤ c → c ≤ 'z' → isAsciiAlphanumeric c = true := by
    intro c hlow hhigh
    simp [isAsciiAlphanumeric, Text.isAsciiLowercase, hlow, hhigh]
  simp only [cloneSchemes, List.mem_cons, List.not_mem_nil, or_false] at h
  rcases h with rfl | rfl | rfl | rfl
  · exact ⟨['h', 't', 't', 'p', 's'], by decide, by decide, by decide, by simp [hletter]⟩
  · exact ⟨['h', 't', 't', 'p'], by decide, by decide, by decide, by simp [hletter]⟩
  · exact ⟨['s', 's', 'h'], by decide, by decide, by decide, by simp [hletter]⟩
  · exact ⟨['g', 'i', 't'], by decide, by decide, by decide, by simp [hletter]⟩

theorem cloneScheme?_spec (h : cloneScheme? url = some entry) :
    entry ∈ cloneSchemes ∧ entry <+: url.map asciiLower := by
  have hpre := List.find?_some h
  exact ⟨List.mem_of_find?_eq_some h, List.isPrefixOf_iff_prefix.1 hpre⟩

section

variable (h : SchemeUrl url scheme authority)
include h

/-- A URL with a scheme begins with at most one entry of the list: its own. -/
theorem SchemeUrl.cloneScheme_eq (hfind : cloneScheme? url = some entry) :
    entry = scheme.map asciiLower ++ "://".toList := by
  obtain ⟨path, rfl, -⟩ := h.split
  obtain ⟨hmem, rest, hrest⟩ := cloneScheme?_spec hfind
  obtain ⟨word, rfl, -, hword, -⟩ := mem_cloneSchemes hmem
  have hcolon : ':' ∉ scheme.map asciiLower := by
    rw [mem_map_asciiLower_iff (by decide)]
    exact h.colon_notMem
  have hcut : word ++ ':' :: ('/' :: '/' :: rest) =
      scheme.map asciiLower ++ ':' :: ('/' :: '/' :: (authority ++ path).map asciiLower) := by
    simpa [asciiLower] using hrest
  rw [(Search.append_cons_inj hword hcolon hcut).1]

theorem SchemeUrl.cloneScheme_isSome (hmem : scheme.map asciiLower ++ "://".toList ∈ cloneSchemes) :
    (cloneScheme? url).isSome = true := by
  obtain ⟨path, rfl, -⟩ := h.split
  rw [cloneScheme?, List.find?_isSome]
  refine ⟨_, hmem, ?_⟩
  rw [List.isPrefixOf_iff_prefix]
  exact ⟨(authority ++ path).map asciiLower, by simp [asciiLower]⟩

/-- What the check takes for the authority behind one of the four schemes. -/
theorem SchemeUrl.authority_eq (hfind : cloneScheme? url = some entry) :
    (url.drop entry.length).takeWhile (· ≠ '/') = authority := by
  rw [h.cloneScheme_eq hfind]
  obtain ⟨path, hurl, hpath⟩ := h.split
  have hdrop : url.drop (scheme.map asciiLower ++ "://".toList).length = authority ++ path := by
    rw [hurl]
    simp
  rw [hdrop, List.takeWhile_append_of_pos]
  · rcases hpath with rfl | ⟨rest, rfl⟩
    · simp
    · simp
  · intro c hc
    simp only [ne_eq, decide_not, Bool.not_eq_eq_eq_not, Bool.not_true, decide_eq_false_iff_not]
    rintro rfl
    exact h.no_slash hc

end

/-- Behind one of the four schemes git reads a scheme too. -/
theorem schemeUrl_of_cloneScheme (hfind : cloneScheme? url = some entry) :
    ∃ scheme authority, SchemeUrl url scheme authority := by
  obtain ⟨hmem, rest, hrest⟩ := cloneScheme?_spec hfind
  obtain ⟨word, rfl, hne, -, halnum⟩ := mem_cloneSchemes hmem
  obtain ⟨front, tail, rfl, hfront, htail⟩ := List.map_eq_append_iff.1 hrest.symm
  obtain ⟨scheme, marks, rfl, rfl, hmarks⟩ := List.map_eq_append_iff.1 hfront
  have hmarks' : marks = "://".toList := by
    apply eq_of_map_asciiLower _ hmarks
    simp [isAsciiAlphanumeric, Text.isAsciiDigit, Text.isAsciiLowercase]
  have hscheme : ∀ c ∈ scheme, isAsciiAlphanumeric c = true := fun c hc =>
    isAsciiAlphanumeric_of_lower (halnum _ (List.mem_map_of_mem hc))
  refine ⟨scheme, tail.takeWhile (· ≠ '/'), ⟨tail.dropWhile (· ≠ '/'), ?_, ?_⟩, ?_, ?_, ?_⟩
  · rw [hmarks', List.takeWhile_append_dropWhile]
    simp
  · cases hdrop : tail.dropWhile (· ≠ '/') with
    | nil => exact Or.inl rfl
    | cons c rest =>
      have hc := List.head?_dropWhile_not (· ≠ '/') tail
      rw [hdrop] at hc
      right
      exact ⟨rest, by simpa using hc⟩
  · intro c hc
    rw [isSchemeChar, hscheme c hc]
    rfl
  · cases scheme with
    | nil => exact absurd rfl hne
    | cons c rest => exact ⟨c, rest, rfl, hscheme c List.mem_cons_self⟩
  · intro hmem
    simpa using List.mem_takeWhile_imp hmem

/-! ## The scp form -/

theorem scpHost?_spec (h : scpHost? url = some host) :
    ∃ rest, url = host ++ ':' :: rest ∧ ':' ∉ host ∧ '/' ∉ host := by
  obtain ⟨hsplit, hhost⟩ := Option.filter_eq_some_iff.1 h
  obtain ⟨⟨front, rest⟩, hcut, rfl⟩ := Option.map_eq_some_iff.1 hsplit
  obtain ⟨hurl, hcolon⟩ := Search.splitOnce_spec hcut
  have hslash : '/' ∉ front := by
    intro hmem
    simp [hmem] at hhost
  exact ⟨rest, hurl, hcolon, hslash⟩

theorem colon_notMem_userText (h : ∀ name, user = some name → ':' ∉ name) :
    ':' ∉ userText user := by
  cases user with
  | none => exact List.not_mem_nil
  | some name => simp [userText, h name rfl]

/-- In front of the first colon of an scp form stands the user, and the host or, of a
host in brackets, what its first colon leaves of it. -/
theorem ScpUrl.front {front : Text}
    (h : ScpUrl url user spelt host) (hurl : url = front ++ ':' :: rest) (hfront : ':' ∉ front) :
    ∃ inner, front = userText user ++ inner ∧ '@' ∉ inner ∧ (':' ∉ spelt → inner = spelt) := by
  obtain ⟨path, hsplit⟩ := h.split
  have huser : ':' ∉ userText user := colon_notMem_userText h.user
  have hmem : ':' ∈ spelt ++ ':' :: path := by simp
  obtain ⟨inner, tail, hbody, hinner⟩ := List.eq_append_cons_of_mem hmem
  have hcut : front ++ ':' :: rest = (userText user ++ inner) ++ ':' :: tail := by
    rw [← hurl, hsplit, hbody, List.append_assoc]
  obtain ⟨hf, -⟩ := Search.append_cons_inj hfront (by simp [huser, hinner]) hcut
  have hfirst : Search.FirstAfter [':'] inner (inner ++ ':' :: tail) :=
    Search.firstAfter_of_not_mem hinner
  have hlen : inner.length ≤ spelt.length := hfirst spelt path (by simp [← hbody])
  have hpre : inner <+: spelt := by
    apply List.prefix_of_prefix_length_le (List.prefix_append inner (':' :: tail)) _ hlen
    rw [← hbody]
    exact List.prefix_append spelt (':' :: path)
  refine ⟨inner, hf, fun hat => h.spells.no_at (hpre.subset hat), ?_⟩
  intro hspelt
  exact (Search.append_cons_inj hspelt hinner hbody).1.symm

/-- The check reads the user of an scp form, and a host without brackets. -/
theorem ScpUrl.fine {front : Text}
    (h : ScpUrl url user spelt host) (hscp : scpHost? url = some front)
    (hok : optionShapedAuthority url front false = .ok ())
    (hbrackets : spelt = '[' :: (host ++ [']']) → Fine host) :
    (Parts.mk user host none).Fine := by
  obtain ⟨rest, hurl, hcolon, -⟩ := scpHost?_spec hscp
  obtain ⟨inner, rfl, hat, hinner⟩ := h.front hurl hcolon
  have hfine := optionShapedAuthority_ok hok
  rw [splitParts, splitUser_userText user hat] at hfine
  refine ⟨hfine.user, ?_, fun value hvalue => nomatch hvalue⟩
  cases h.spells with
  | plain hplain _ _ =>
    rw [← hinner hplain]
    exact hfine.host
  | bracketed _ _ => exact hbrackets rfl

/-! ## What is accepted -/

/-- A URL is accepted behind one of the four schemes, or as an scp form. -/
theorem validateCloneUrl_ok (h : validateCloneUrl url = .ok ()) :
    helper? url = none ∧ ¬ "file:".toList <+: url.map asciiLower ∧
      ((∃ entry, cloneScheme? url = some entry ∧ optionShapedAuthority url
          ((url.drop entry.length).takeWhile (· ≠ '/')) true = .ok ()) ∨
        (cloneScheme? url = none ∧ ∃ host, scpHost? url = some host ∧
          optionShapedAuthority url host false = .ok ())) := by
  unfold validateCloneUrl at h
  dsimp only at h
  split at h
  · cases h
  cases hhelper : helper? url with
  | some helper =>
    rw [hhelper] at h
    cases h
  | none =>
    rw [hhelper] at h
    dsimp only at h
    split at h
    · cases h
    rename_i hfile
    refine ⟨rfl, fun hpre => hfile (List.isPrefixOf_iff_prefix.2 hpre), ?_⟩
    split at h
    · cases h
    cases hscheme : cloneScheme? url with
    | some entry =>
      rw [hscheme] at h
      exact Or.inl ⟨entry, rfl, h⟩
    | none =>
      rw [hscheme] at h
      cases hscp : scpHost? url with
      | some host =>
        rw [hscp] at h
        exact Or.inr ⟨rfl, host, rfl, h⟩
      | none =>
        rw [hscp] at h
        cases h

theorem helper?_eq {name : Text} (hcolon : ':' ∉ name) (hslash : '/' ∉ name) :
    helper? (name ++ "::".toList ++ rest) = some name := by
  have hbefore : before? "::".toList (name ++ "::".toList ++ rest) = some name := by
    apply Search.before?_append
    rw [List.append_assoc]
    exact Search.firstAfter_of_not_mem hcolon
  rw [helper?, hbefore, Option.filter_some, if_pos (by simp [hcolon, hslash])]

theorem SchemeUrl.slash_notMem (h : SchemeUrl url scheme authority) :
    '/' ∉ scheme := by
  intro hmem
  exact absurd (h.chars '/' hmem) (by decide)

/-- An accepted URL has a colon with no slash in front of it. -/
theorem not_isLocal (h : validateCloneUrl url = .ok ()) : ¬ IsLocal url := by
  intro hlocal
  obtain ⟨-, -, ⟨entry, hfind, -⟩ | ⟨-, host, hscp, -⟩⟩ := validateCloneUrl_ok h
  · obtain ⟨scheme, authority, hscheme⟩ := schemeUrl_of_cloneScheme hfind
    obtain ⟨path, hurl, -⟩ := hscheme.split
    exact hscheme.slash_notMem (hlocal scheme _ hurl)
  · obtain ⟨rest, hurl, -, hslash⟩ := scpHost?_spec hscp
    exact hslash (hlocal host rest hurl)

theorem SchemeUrl.not_file (h : SchemeUrl url scheme authority)
    (hok : validateCloneUrl url = .ok ()) : scheme.map asciiLower ≠ "file".toList := by
  intro hfile
  obtain ⟨path, hurl, -⟩ := h.split
  apply (validateCloneUrl_ok hok).2.1
  refine ⟨('/' :: '/' :: (authority ++ path)).map asciiLower, ?_⟩
  rw [hurl, List.map_append, hfile]
  simp [asciiLower]

/-- The parts of an accepted URL that the condition covers. -/
theorem Covered.parts_fine {own : Text → Prop} (h : Covered own url)
    (hok : validateCloneUrl url = .ok ()) {parts : Parts} (hreads : Reads url parts) :
    parts.Fine := by
  obtain ⟨-, -, hcase⟩ := validateCloneUrl_ok hok
  cases hreads with
  | scheme hurl hparts =>
    rcases h.scheme _ _ hurl with hmem | hfine
    · rcases hcase with ⟨entry, hfind, hchecked⟩ | ⟨hnone, -⟩
      · rw [hurl.authority_eq hfind] at hchecked
        exact hparts.fine hchecked
      · have hsome := hurl.cloneScheme_isSome hmem
        rw [hnone] at hsome
        cases hsome
    · exact hfine parts hparts
  | scp hurl =>
    rcases hcase with ⟨entry, hfind, -⟩ | ⟨-, host, hscp, hchecked⟩
    · obtain ⟨scheme, authority, hscheme⟩ := schemeUrl_of_cloneScheme hfind
      exact absurd hscheme (hurl.no_scheme scheme authority)
    · apply hurl.fine hscp hchecked
      rintro rfl
      exact h.brackets _ _ hurl

theorem validateCloneUrl_safe_iff (own : Text → Prop)
    (hok : validateCloneUrl url = .ok ()) : Safe own url ↔ Covered own url := by
  constructor
  · intro hsafe
    refine ⟨?_, ?_, ?_⟩
    · intro scheme authority hurl
      by_contra hown
      exact hsafe.not_helper (Or.inr ⟨scheme, authority, hurl, hown⟩)
    · intro scheme authority hurl
      exact Or.inr fun parts hparts => hsafe.parts parts (.scheme hurl hparts)
    · intro user host hurl
      exact (hsafe.parts _ (.scp hurl)).host
  · intro hcovered
    refine ⟨not_isLocal hok, fun _ _ hurl => hurl.not_file hok, ?_,
      fun parts => hcovered.parts_fine hok⟩
    rintro (⟨name, rest, rfl, hcolon, hslash⟩ | ⟨scheme, authority, hurl, hown⟩)
    · have hnone := (validateCloneUrl_ok hok).1
      rw [helper?_eq hcolon hslash] at hnone
      cases hnone
    · exact hown (hcovered.own_scheme scheme authority hurl)

/-- A remote that is read as a URL is fetched from only when the clone tool takes it. -/
theorem fetchRemote_ok {remote out : Text} (hshape : urlShaped remote = true)
    (h : fetchRemote remote = .ok out) : validateCloneUrl remote = .ok () := by
  rw [fetchRemote, if_pos hshape] at h
  cases hcheck : validateCloneUrl remote with
  | error e =>
    rw [hcheck] at h
    cases h
  | ok _ => rfl

theorem SchemeUrl.contains (h : SchemeUrl url scheme authority) :
    containsList "://".toList url = true := by
  obtain ⟨path, rfl, -⟩ := h.split
  exact Text.containsList_append scheme "://".toList (authority ++ path)

/-- **The URLs that reach git**: of those the clone tool or a fetch accepts, exactly the
covered ones are harmless, whichever schemes git has transports of its own for. -/
theorem accepted_safe_iff (own : Text → Prop) (url : Text) (h : validateCloneUrl url = .ok () ∨
      (urlShaped url = true ∧ ∃ remote, fetchRemote url = .ok remote)) :
    Safe own url ↔ Covered own url := by
  rcases h with hok | ⟨hshape, remote, hfetch⟩
  · exact validateCloneUrl_safe_iff own hok
  · exact validateCloneUrl_safe_iff own (fetchRemote_ok hshape hfetch)

/-- The usual scp form is covered, and so harmless. -/
theorem accepted_safe_scp :
    validateCloneUrl "git@github.com:org/repo.git".toList = .ok () ∧
      Safe (fun scheme => scheme = "ssh".toList) "git@github.com:org/repo.git".toList := by
  have hok : validateCloneUrl "git@github.com:org/repo.git".toList = .ok () := by rfl
  have hscheme : ∀ scheme authority,
      ¬ SchemeUrl "git@github.com:org/repo.git".toList scheme authority := by
    intro scheme authority hurl
    exact absurd hurl.contains (by decide)
  refine ⟨hok, (accepted_safe_iff _ _ (Or.inl hok)).2 ⟨?_, ?_, ?_⟩⟩
  · exact fun scheme authority hurl => absurd hurl (hscheme scheme authority)
  · exact fun scheme authority hurl => absurd hurl (hscheme scheme authority)
  · intro user host hurl
    obtain ⟨path, hsplit⟩ := hurl.split
    have hmem : '[' ∈ "git@github.com:org/repo.git".toList := by
      rw [hsplit]
      simp
    exact absurd hmem (by decide)

/-- An option in the place of the host is accepted in brackets, and behind a scheme that
git reads as ssh. -/
theorem option_host_accepted :
    validateCloneUrl "[-oProxyCommand=x]:repo".toList = .ok () ∧
      ¬ Safe (fun _ => True) "[-oProxyCommand=x]:repo".toList ∧
    validateCloneUrl "ssh+git://-oProxyCommand=x/repo".toList = .ok () ∧
      ¬ Safe (fun _ => True) "ssh+git://-oProxyCommand=x/repo".toList := by
  refine ⟨by rfl, ?_, by rfl, ?_⟩
  · intro hsafe
    have hurl : ScpUrl "[-oProxyCommand=x]:repo".toList none "[-oProxyCommand=x]".toList
        "-oProxyCommand=x".toList := by
      constructor
      · intro scheme authority hscheme
        exact absurd hscheme.contains (by decide)
      · exact @Spells.bracketed "-oProxyCommand=x".toList (by decide) (by decide)
      · exact ⟨"repo".toList, by rfl⟩
      · exact fun name hname => nomatch hname
    exact (hsafe.parts _ (.scp hurl)).host.1 (by decide)
  · intro hsafe
    have hurl : SchemeUrl "ssh+git://-oProxyCommand=x/repo".toList "ssh+git".toList
        "-oProxyCommand=x".toList := by
      refine ⟨⟨"/repo".toList, by rfl, Or.inr ⟨"repo".toList, by rfl⟩⟩, ?_, ?_, by decide⟩
      · simp [isSchemeChar, isAsciiAlphanumeric, Text.isAsciiLowercase, Text.isAsciiDigit]
      · exact ⟨'s', "sh+git".toList, by rfl, by decide⟩
    have hparts : AuthorityOf "-oProxyCommand=x".toList
        ⟨none, "-oProxyCommand=x".toList, none⟩ := by
      refine ⟨⟨"-oProxyCommand=x".toList, ?_, by rfl⟩, fun port hport => nomatch hport⟩
      exact .plain (by decide) (by decide) (by decide)
    exact (hsafe.parts _ (.scheme hurl hparts)).host.1 (by decide)

end EmbraOS.Ports.GitUrl
